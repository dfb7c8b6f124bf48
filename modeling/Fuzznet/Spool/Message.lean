/-
# The filestore messages

`spool/message.c`: a query for a blob, what a host holds of it, a span wanted and the span sent,
each with its encoder and its parser.

The lengths of the leaves of a span sent are added up in a `size_t`.  Its arithmetic is a
parameter (`Sizes`): the machine's, of so many bits, or the numbers' own.
-/

import Fuzznet.Spool.Plan

namespace Fuzznet
namespace Spool

open Wire Lib Blob

/-- `fzn_msg_type_t`. -/
inductive MsgType
  | haveQuery
  | holding
  | want
  | data
  deriving DecidableEq, Repr

/-- The type's byte. -/
def MsgType.byte : MsgType → ℕ
  | .haveQuery => 1
  | .holding => 2
  | .want => 3
  | .data => 4

/-- `fzn_msg_err_t`, without OK. -/
inductive MsgErr
  | malformed
  | tooLarge
  | empty
  deriving DecidableEq, Repr

/-- `FZN_MSG_VERSION`. -/
def msgVersion : ℕ := 1

/-- `FZN_MSG_HAVE_QUERY_LEN`. -/
def haveQueryLen : ℕ := 34

/-- `FZN_MSG_HAVE_OFF_RANGES`. -/
def haveOffRanges : ℕ := 60

/-- `FZN_MSG_RANGE_LEN`. -/
def rangeLen : ℕ := 16

/-- `FZN_MSG_WANT_LEN`. -/
def wantLen : ℕ := 70

/-- `FZN_MSG_DATA_OFF_PROOF`. -/
def dataOffProof : ℕ := 23

/-- `FZN_MSG_MAX_RANGES`. -/
def maxRanges : ℕ := spoolMaxWant

/-- `FZN_MSG_MAX_SPAN`. -/
def maxSpan : ℕ := 64

/-- `FZN_MSG_MAX_PROOF`. -/
def maxProof : ℕ := maxDepth

/-- `FZN_MSG_COOKIE_LEN` bytes. -/
abbrev Cookie := BitVec (8 * 16)

/-- `check_header`. -/
def checkHeader (bs : Bytes) (need : ℕ) (type : MsgType) : Except MsgErr Unit :=
  if bs.length < need then .error .malformed
  else if getBe bs 0 1 ≠ msgVersion then .error .malformed
  else if getBe bs 1 1 ≠ type.byte then .error .malformed
  else .ok ()

/-- Refused for a fault, where there is one. -/
def orFault {α : Type} (fault : Option MsgErr) (r : Except MsgErr α) : Except MsgErr α :=
  match fault with
  | some err => .error err
  | none => r

/-- Fields of so many bytes, one behind the other. -/
def putFields (fields : List (ℕ × ℕ)) : Bytes := fields.flatMap fun f => putBe f.1 f.2

/-- `put_header` and the fields behind it. -/
def putMsg (type : MsgType) (fields : List (ℕ × ℕ)) : Bytes :=
  putFields ((1, msgVersion) :: (1, type.byte) :: fields)

/-- `n` values of `width` bytes each, read from `off` on. -/
def readArray {α : Type} (read : ℕ → α) (width : ℕ) : ℕ → ℕ → List α
  | _, 0 => []
  | off, n + 1 => read off :: readArray read width (off + width) n

/-! ## A query -/

/-- The bytes of a query. -/
def haveQueryBytes (root : Bytes32) : Bytes := putMsg .haveQuery [(32, root.toNat)]

/-- `fzn_msg_have_query_encode`. -/
def haveQueryEncode (root : Bytes32) (outCap : ℕ) : Except MsgErr Bytes :=
  if outCap < haveQueryLen then .error .tooLarge else .ok (haveQueryBytes root)

/-- `fzn_msg_have_query_parse`. -/
def haveQueryParse (bs : Bytes) : Except MsgErr Bytes32 := do
  checkHeader bs haveQueryLen .haveQuery
  if bs.length ≠ haveQueryLen then .error .malformed
  else .ok (BitVec.ofNat (8 * 32) (getBe bs 2 32))

/-! ## What is held -/

/-- What `fzn_msg_have_encode` is given. -/
structure Have where
  root : Bytes32
  leafCount : ℕ
  cookie : Cookie
  ranges : List Range
  deriving DecidableEq, Repr

/-- The bytes of a range. -/
def Range.bytes (r : Range) : Bytes := putBe 8 r.first ++ putBe 8 r.count

/-- The range there. -/
def rangeAt (bs : Bytes) (off : ℕ) : Range := ⟨getBe bs off 8, getBe bs (off + 8) 8⟩

/-- `FZN_MSG_HAVE_LEN`. -/
def haveLen (ranges : ℕ) : ℕ := haveOffRanges + ranges * rangeLen

/-- What is wrong with the ranges: the first that is empty or not in the blob. -/
def rangesFault (leafCount : ℕ) : List Range → Option MsgErr
  | [] => none
  | r :: ranges =>
    if r.count = 0 then some .empty
    else if leafCount < r.first ∨ leafCount - r.first < r.count then some .malformed
    else rangesFault leafCount ranges

/-- The bytes of what is held. -/
def Have.bytes (m : Have) : Bytes :=
  putMsg .holding [(32, m.root.toNat), (8, m.leafCount), (16, m.cookie.toNat),
    (2, m.ranges.length)] ++ m.ranges.flatMap Range.bytes

/-- `fzn_msg_have_encode`. -/
def haveEncode (m : Have) (outCap : ℕ) : Except MsgErr Bytes :=
  if m.ranges.length = 0 then .error .empty
  else if maxRanges < m.ranges.length then .error .tooLarge
  else if m.leafCount = 0 ∨ spoolMaxLeaves < m.leafCount then .error .malformed
  else if outCap < haveLen m.ranges.length then .error .tooLarge
  else orFault (rangesFault m.leafCount m.ranges) (.ok m.bytes)

/-- `fzn_msg_have_parse`. -/
def haveParse (bs : Bytes) (cap : ℕ) : Except MsgErr Have := do
  checkHeader bs haveOffRanges .holding
  let rangeCount := getBe bs 58 2
  if rangeCount = 0 then .error .empty
  else if maxRanges < rangeCount then .error .tooLarge
  else if bs.length ≠ haveLen rangeCount then .error .malformed
  else if cap < rangeCount then .error .tooLarge
  else
    let leafCount := getBe bs 34 8
    if leafCount = 0 ∨ spoolMaxLeaves < leafCount then .error .malformed
    else
      let ranges := readArray (rangeAt bs) rangeLen haveOffRanges rangeCount
      orFault (rangesFault leafCount ranges)
        (.ok ⟨BitVec.ofNat (8 * 32) (getBe bs 2 32), leafCount,
          BitVec.ofNat (8 * 16) (getBe bs 42 16), ranges⟩)

/-! ## A span wanted -/

/-- What `fzn_msg_want_encode` is given. -/
structure Want where
  transfer : BitVec (8 * 4)
  cookie : Cookie
  root : Bytes32
  first : ℕ
  count : ℕ
  deriving DecidableEq, Repr

/-- What is wrong with a span: it is empty, too long, or not in any blob. -/
def spanFault (first count : ℕ) : Option MsgErr :=
  if count = 0 then some .empty
  else if maxSpan < count then some .tooLarge
  else if spoolMaxLeaves < first ∨ spoolMaxLeaves - first < count then some .malformed
  else none

/-- The bytes of a span wanted. -/
def Want.bytes (m : Want) : Bytes :=
  putMsg .want [(4, m.transfer.toNat), (16, m.cookie.toNat), (32, m.root.toNat), (8, m.first),
    (8, m.count)]

/-- `fzn_msg_want_encode`. -/
def wantEncode (m : Want) (outCap : ℕ) : Except MsgErr Bytes :=
  orFault (spanFault m.first m.count)
    (if outCap < wantLen then .error .tooLarge else .ok m.bytes)

/-- `fzn_msg_want_parse`. -/
def wantParse (bs : Bytes) : Except MsgErr Want := do
  checkHeader bs wantLen .want
  if bs.length ≠ wantLen then .error .malformed
  else
    orFault (spanFault (getBe bs 54 8) (getBe bs 62 8))
      (.ok ⟨BitVec.ofNat (8 * 4) (getBe bs 2 4), BitVec.ofNat (8 * 16) (getBe bs 6 16),
        BitVec.ofNat (8 * 32) (getBe bs 22 32), getBe bs 54 8, getBe bs 62 8⟩)

/-! ## A span sent -/

/-- The arithmetic of a `size_t`. -/
structure Sizes where
  add : ℕ → ℕ → ℕ
  sub : ℕ → ℕ → ℕ
  mul : ℕ → ℕ → ℕ

/-- The arithmetic of numbers. -/
def Sizes.exact : Sizes := ⟨(· + ·), (· - ·), (· * ·)⟩

/-- The arithmetic of words of `w` bits, which wraps. -/
def Sizes.bits (w : ℕ) : Sizes :=
  ⟨fun a b => (a + b) % 2 ^ w, fun a b => (a + (2 ^ w - b % 2 ^ w)) % 2 ^ w,
    fun a b => a * b % 2 ^ w⟩

/-- What `fzn_msg_data_encode` is given; the count of the span is that of its leaves. -/
structure Data where
  transfer : BitVec (8 * 4)
  first : ℕ
  proof : List Bytes32
  sealed : List Bytes
  deriving DecidableEq, Repr

/-- The bytes of a span sent. -/
def Data.bytes (m : Data) : Bytes :=
  putMsg .data [(4, m.transfer.toNat), (8, m.first), (8, m.sealed.length), (1, m.proof.length)] ++
    (m.proof.flatMap (fun h => putBe 32 h.toNat) ++
      ((m.sealed.map List.length).flatMap (putBe 4) ++ m.sealed.flatten))

/-- What comes before the lengths of the leaves: the header and the proof. -/
def dataLens (S : Sizes) (proofCount : ℕ) : ℕ := S.add dataOffProof (S.mul proofCount hashLen)

/-- What comes before the leaves. -/
def dataNeed (S : Sizes) (proofCount count : ℕ) : ℕ := S.add (dataLens S proofCount) (S.mul count 4)

/-- The lengths of the leaves added up, each against what is left of `cap` behind `need`; `long`
is what one that is too long is.  A length that is read has 32 bits, so the parser's is never
too large for them. -/
def addUp (S : Sizes) (long : MsgErr) (cap need : ℕ) : List ℕ → ℕ → Except MsgErr ℕ
  | [], body => .ok body
  | one :: ones, body =>
    if one = 0 then .error .malformed
    else if 2 ^ 32 ≤ one then .error long
    else if cap < need ∨ S.sub (S.sub cap need) body < one then .error long
    else addUp S long cap need ones (S.add body one)

/-- `fzn_msg_data_encode`: what is written, and `*out_len`. -/
def dataEncode (S : Sizes) (m : Data) (outCap : ℕ) : Except MsgErr (Bytes × ℕ) :=
  if m.sealed.length = 0 then .error .empty
  else if maxSpan < m.sealed.length ∨ maxProof < m.proof.length then .error .tooLarge
  else if spoolMaxLeaves < m.first ∨ spoolMaxLeaves - m.first < m.sealed.length then
    .error .malformed
  else do
    let need := dataNeed S m.proof.length m.sealed.length
    let body ← addUp S .tooLarge outCap need (m.sealed.map List.length) 0
    if outCap < S.add need body then .error .tooLarge
    else .ok (m.bytes, S.add need body)

/-- What `fzn_msg_data_parse` hands out: the leaves are places in the message, each with its
length, and so are the `proofCount` hashes of the proof, from `FZN_MSG_DATA_OFF_PROOF` on. -/
structure DataView where
  transfer : BitVec (8 * 4)
  first : ℕ
  proofCount : ℕ
  sealed : List (ℕ × ℕ)
  deriving DecidableEq, Repr

/-- Where leaves of these lengths are. -/
def places : ℕ → List ℕ → List (ℕ × ℕ)
  | _, [] => []
  | off, len :: lens => (off, len) :: places (off + len) lens

/-- The bytes there. -/
def slice (bs : Bytes) (place : ℕ × ℕ) : Bytes := (bs.drop place.1).take place.2

/-- The span there. -/
def DataView.data (v : DataView) (bs : Bytes) : Data where
  transfer := v.transfer
  first := v.first
  proof := readArray (fun off => BitVec.ofNat (8 * 32) (getBe bs off 32)) hashLen dataOffProof
    v.proofCount
  sealed := v.sealed.map (slice bs)

/-- `fzn_msg_data_parse`. -/
def dataParse (S : Sizes) (bs : Bytes) (cap : ℕ) : Except MsgErr DataView := do
  checkHeader bs dataOffProof .data
  let count := getBe bs 14 8
  if count = 0 then .error .empty
  else if maxSpan < count then .error .tooLarge
  else if cap < count then .error .tooLarge
  else
    let first := getBe bs 6 8
    if spoolMaxLeaves < first ∨ spoolMaxLeaves - first < count then .error .malformed
    else
      let proofCount := getBe bs 22 1
      if maxProof < proofCount then .error .tooLarge
      else
        let need := dataNeed S proofCount count
        if bs.length < need then .error .malformed
        else do
          let ones := readArray (fun off => getBe bs off 4) 4 (dataLens S proofCount) count
          let body ← addUp S .malformed bs.length need ones 0
          if bs.length ≠ S.add need body then .error .malformed
          else .ok ⟨BitVec.ofNat (8 * 4) (getBe bs 2 4), first, proofCount, places need ones⟩

/-! ## What is accepted -/

section Refusals

variable {α β : Type} {r : Except MsgErr α} {a : α} {b : β}

theorem orFault_ok_iff {fault : Option MsgErr} : orFault fault r = .ok a ↔ fault = none ∧ r = .ok a := by
  cases fault with
  | none => exact (and_iff_right rfl).symm
  | some err => exact ⟨fun h => (nomatch h), fun h => (nomatch h.1)⟩

variable {bs : Bytes}

theorem checkHeader_bind {need : ℕ} {type : MsgType} {f : Unit → Except MsgErr β} :
    (checkHeader bs need type >>= f) = .ok b ↔
      need ≤ bs.length ∧ getBe bs 0 1 = msgVersion ∧ getBe bs 1 1 = type.byte ∧ f () = .ok b := by
  rw [bind_ok_iff, checkHeader]
  simp only [ite_ok_iff, not_lt, not_not, and_true]
  constructor
  · exact fun ⟨_, ⟨hlen, hversion, htype⟩, h⟩ => ⟨hlen, hversion, htype, h⟩
  · exact fun ⟨hlen, hversion, htype, h⟩ => ⟨(), ⟨hlen, hversion, htype⟩, h⟩

end Refusals

/-! ## Parts in their places -/

section Parts

variable {bs rest : Bytes} {off : ℕ}

theorem getBe_iff {n v : ℕ} (hv : v < 256 ^ n) (h : off + n ≤ bs.length) :
    bs.drop off = putBe n v ++ rest ↔ getBe bs off n = v ∧ bs.drop (off + n) = rest := by
  constructor
  · exact fun hall => ⟨getBe_of_drop hall hv, drop_next hall (by rw [length_putBe])⟩
  · rintro ⟨rfl, rfl⟩
    exact (putBe_getBe_append bs off n h).symm

theorem ofNat_getBe_iff {n : ℕ} {t : BitVec (8 * n)} :
    BitVec.ofNat (8 * n) (getBe bs off n) = t ↔ getBe bs off n = t.toNat := by
  rw [← BitVec.toNat_inj, toNat_getBe]

/-- The fields, read in their places. -/
def FieldsAt (bs : Bytes) : ℕ → List (ℕ × ℕ) → Prop
  | _, [] => True
  | off, (n, v) :: fields => getBe bs off n = v ∧ FieldsAt bs (off + n) fields

/-- The fields have the bytes for their values. -/
def FieldsFit : List (ℕ × ℕ) → Prop
  | [] => True
  | (n, v) :: fields => v < 256 ^ n ∧ FieldsFit fields

/-- The bytes of some fields. -/
def fieldsLen (fields : List (ℕ × ℕ)) : ℕ := (fields.map Prod.fst).sum

theorem fieldsLen_cons (n v : ℕ) (fields : List (ℕ × ℕ)) :
    fieldsLen ((n, v) :: fields) = n + fieldsLen fields := rfl

theorem length_putFields (fields : List (ℕ × ℕ)) : (putFields fields).length = fieldsLen fields := by
  rw [putFields, List.length_flatMap]
  exact congrArg List.sum (List.map_congr_left fun f _ => length_putBe _ _)

/-- **Fields are read just where they are written.** -/
theorem putFields_iff {fields : List (ℕ × ℕ)} (hfit : FieldsFit fields)
    (h : off + fieldsLen fields ≤ bs.length) : bs.drop off = putFields fields ++ rest ↔
      FieldsAt bs off fields ∧ bs.drop (off + fieldsLen fields) = rest := by
  induction fields generalizing off with
  | nil => exact (and_iff_right trivial).symm
  | cons f fields ih =>
    obtain ⟨n, v⟩ := f
    rw [fieldsLen_cons] at h
    rw [FieldsAt, fieldsLen_cons, show putFields ((n, v) :: fields) = putBe n v ++ putFields fields
      from rfl, List.append_assoc, getBe_iff hfit.1 (by omega), ih hfit.2 (by omega), and_assoc,
      ← Nat.add_assoc]

/-- A message's header and fields, and what is behind them. -/
theorem putMsg_append_iff {type : MsgType} {fields : List (ℕ × ℕ)} (hfit : FieldsFit fields)
    (h : 2 + fieldsLen fields ≤ bs.length) : bs = putMsg type fields ++ rest ↔
      getBe bs 0 1 = msgVersion ∧ getBe bs 1 1 = type.byte ∧ FieldsAt bs 2 fields ∧
        bs.drop (2 + fieldsLen fields) = rest := by
  have hall := @putFields_iff bs rest 0 ((1, msgVersion) :: (1, type.byte) :: fields)
    ⟨by decide, by cases type <;> decide, hfit⟩ (by rw [fieldsLen_cons, fieldsLen_cons]; omega)
  rw [fieldsLen_cons, fieldsLen_cons, ← Nat.add_assoc, ← Nat.add_assoc, FieldsAt, FieldsAt,
    and_assoc, and_assoc] at hall
  exact hall

/-- A message of fields alone. -/
theorem putMsg_iff {type : MsgType} {fields : List (ℕ × ℕ)} (hfit : FieldsFit fields)
    (h : bs.length = 2 + fieldsLen fields) : bs = putMsg type fields ↔
      getBe bs 0 1 = msgVersion ∧ getBe bs 1 1 = type.byte ∧ FieldsAt bs 2 fields := by
  rw [← List.append_nil (putMsg type fields), putMsg_append_iff hfit h.ge,
    List.drop_of_length_le h.le, eq_self, and_true]

variable {α : Type} {read : ℕ → α} {write : α → Bytes} {width n : ℕ} {vs : List α}

theorem length_readArray : (readArray read width off n).length = n := by
  induction n generalizing off with
  | zero => rfl
  | succ n ih => rw [readArray, List.length_cons, ih]

/-- **An array is read just where it is written**, where each of its values is. -/
theorem flatMap_iff (hread : ∀ v ∈ vs, ∀ off rest, off + width ≤ bs.length →
      (bs.drop off = write v ++ rest ↔ read off = v ∧ bs.drop (off + width) = rest))
    (h : off + vs.length * width ≤ bs.length) : bs.drop off = vs.flatMap write ++ rest ↔
      readArray read width off vs.length = vs ∧ bs.drop (off + vs.length * width) = rest := by
  induction vs generalizing off with
  | nil => simp [readArray]
  | cons v vs ih =>
    rw [List.length_cons, Nat.succ_mul] at h
    rw [List.flatMap_cons, List.append_assoc, hread v List.mem_cons_self _ _ (by omega),
      ih (fun v hv => hread v (List.mem_cons_of_mem _ hv)) (by omega), List.length_cons, readArray,
      List.cons.injEq, and_assoc, Nat.succ_mul, Nat.add_assoc, Nat.add_comm width]

theorem length_flatMap_width (hwidth : ∀ v ∈ vs, (write v).length = width) :
    (vs.flatMap write).length = vs.length * width := by
  induction vs with
  | nil => rw [List.flatMap_nil, List.length_nil, List.length_nil, Nat.zero_mul]
  | cons v vs ih =>
    rw [List.flatMap_cons, List.length_append, hwidth v List.mem_cons_self,
      ih fun v hv => hwidth v (List.mem_cons_of_mem _ hv), List.length_cons, Nat.succ_mul,
      Nat.add_comm]

end Parts

/-! ## A query, what is held, a span wanted -/

theorem haveQueryParse_iff {root : Bytes32} :
    haveQueryParse bs = .ok root ↔ bs = haveQueryBytes root := by
  have hiff (hlen : bs.length = haveQueryLen) := @putMsg_iff bs .haveQuery [(32, root.toNat)]
    ⟨toNat_lt_bytes root, trivial⟩ hlen
  rw [haveQueryParse, checkHeader_bind, ite_ok_iff, not_not, Except.ok.injEq, ofNat_getBe_iff]
  constructor
  · rintro ⟨-, hversion, htype, hlen, hroot⟩
    exact (hiff hlen).2 ⟨hversion, htype, hroot, trivial⟩
  · intro hbytes
    have hlen : bs.length = haveQueryLen := by
      rw [hbytes]
      exact length_putFields _
    obtain ⟨hversion, htype, hroot, -⟩ := (hiff hlen).1 hbytes
    exact ⟨hlen.ge, hversion, htype, hlen, hroot⟩

/-- A span that is one of some blob. -/
theorem spanFault_none {first count : ℕ} : spanFault first count = none ↔
    count ≠ 0 ∧ count ≤ maxSpan ∧ first ≤ spoolMaxLeaves ∧ count ≤ spoolMaxLeaves - first := by
  unfold spanFault
  split_ifs <;> simp_all
  omega

/-- A number of the blob's leaves has eight bytes. -/
theorem lt_of_le_leaves {n : ℕ} (h : n ≤ spoolMaxLeaves) : n < 256 ^ 8 :=
  h.trans_lt (by decide)

theorem wantParse_iff {m : Want} :
    wantParse bs = .ok m ↔ spanFault m.first m.count = none ∧ bs = m.bytes := by
  obtain ⟨transfer, cookie, root, first, count⟩ := m
  have hiff (hfault : spanFault first count = none) (hlen : bs.length = wantLen) :=
    @putMsg_iff bs .want [(4, transfer.toNat), (16, cookie.toNat), (32, root.toNat), (8, first),
      (8, count)] (by
        obtain ⟨-, hcount, hfirst, hleft⟩ := spanFault_none.1 hfault
        exact ⟨toNat_lt_be (n := 4) _, toNat_lt_be (n := 16) _, toNat_lt_bytes _,
          lt_of_le_leaves hfirst, lt_of_le_leaves (hleft.trans (Nat.sub_le _ _)), trivial⟩) hlen
  rw [wantParse, checkHeader_bind, ite_ok_iff, not_not, orFault_ok_iff, Except.ok.injEq, Want.mk.injEq,
    ofNat_getBe_iff, ofNat_getBe_iff, ofNat_getBe_iff]
  constructor
  · rintro ⟨-, hversion, htype, hlen, hfault, htransfer, hcookie, hroot, rfl, rfl⟩
    exact ⟨hfault, (hiff hfault hlen).2 ⟨hversion, htype, htransfer, hcookie, hroot, rfl, rfl,
      trivial⟩⟩
  · rintro ⟨hfault, hbytes⟩
    have hlen : bs.length = wantLen := by
      rw [hbytes]
      exact length_putFields _
    obtain ⟨hversion, htype, htransfer, hcookie, hroot, rfl, rfl, -⟩ := (hiff hfault hlen).1 hbytes
    exact ⟨hlen.ge, hversion, htype, hlen, hfault, htransfer, hcookie, hroot, rfl, rfl⟩

/-- What is held is some ranges of a blob. -/
structure Have.Ok (m : Have) : Prop where
  some : m.ranges.length ≠ 0
  few : m.ranges.length ≤ maxRanges
  leaves : m.leafCount ≠ 0
  blob : m.leafCount ≤ spoolMaxLeaves
  ranges : rangesFault m.leafCount m.ranges = none

theorem rangesFault_none {leafCount : ℕ} {ranges : List Range} :
    rangesFault leafCount ranges = none ↔
      ∀ r ∈ ranges, r.count ≠ 0 ∧ r.first ≤ leafCount ∧ r.count ≤ leafCount - r.first := by
  induction ranges with
  | nil => exact ⟨fun _ _ hr => (nomatch hr), fun _ => rfl⟩
  | cons r ranges ih =>
    rw [List.forall_mem_cons, ← ih, rangesFault]
    split_ifs with hcount hleft
    · exact ⟨fun h => (nomatch h), fun h => absurd hcount h.1.1⟩
    · exact ⟨fun h => (nomatch h), fun h => by omega⟩
    · exact ⟨fun h => ⟨by omega, h⟩, fun h => h.2⟩

theorem haveEncode_iff {m : Have} {outCap : ℕ} :
    haveEncode m outCap = .ok bs ↔ m.Ok ∧ haveLen m.ranges.length ≤ outCap ∧ bs = m.bytes := by
  rw [haveEncode, ite_ok_iff, ite_ok_iff, ite_ok_iff, ite_ok_iff, orFault_ok_iff, Except.ok.injEq]
  constructor
  · rintro ⟨hsome, hfew, hleaves, hcap, hranges, h⟩
    exact ⟨⟨hsome, not_lt.1 hfew, fun hz => hleaves (.inl hz),
      not_lt.1 fun hlt => hleaves (.inr hlt), hranges⟩, not_lt.1 hcap, h.symm⟩
  · rintro ⟨hok, hcap, hbytes⟩
    exact ⟨hok.some, not_lt.2 hok.few, not_or.2 ⟨hok.leaves, not_lt.2 hok.blob⟩, not_lt.2 hcap,
      hok.ranges, hbytes.symm⟩

theorem Have.length_bytes (m : Have) : m.bytes.length = haveLen m.ranges.length := by
  rw [Have.bytes, List.length_append, putMsg, length_putFields,
    length_flatMap_width fun r _ => show r.bytes.length = rangeLen by
      rw [Range.bytes, List.length_append, length_putBe, length_putBe]
      rfl]
  rfl

/-- The ranges are read just where they are written. -/
theorem Have.Ok.bytes_iff {m : Have} (hok : m.Ok) (hlen : bs.length = haveLen m.ranges.length) :
    bs = m.bytes ↔
      getBe bs 0 1 = msgVersion ∧ getBe bs 1 1 = MsgType.holding.byte ∧
        FieldsAt bs 2 [(32, m.root.toNat), (8, m.leafCount), (16, m.cookie.toNat),
          (2, m.ranges.length)] ∧
        readArray (rangeAt bs) rangeLen haveOffRanges m.ranges.length = m.ranges := by
  have hblob := hok.blob
  have hfits : FieldsFit [(32, m.root.toNat), (8, m.leafCount), (16, m.cookie.toNat),
      (2, m.ranges.length)] :=
    ⟨toNat_lt_bytes _, lt_of_le_leaves hblob, toNat_lt_be (n := 16) _,
      hok.few.trans_lt (by decide), trivial⟩
  have hread : ∀ r ∈ m.ranges, ∀ off rest, off + rangeLen ≤ bs.length →
      (bs.drop off = r.bytes ++ rest ↔ rangeAt bs off = r ∧ bs.drop (off + rangeLen) = rest) := by
    intro r hr off rest hle
    obtain ⟨-, hfirst, hcount⟩ := rangesFault_none.1 hok.ranges r hr
    have hle' : off + 8 + 8 ≤ bs.length := hle
    rw [Range.bytes, List.append_assoc, getBe_iff (lt_of_le_leaves (hfirst.trans hblob)) (by omega),
      getBe_iff (lt_of_le_leaves (by omega)) hle', ← and_assoc]
    exact and_congr_left' (Range.mk.injEq _ _ _ _).to_iff.symm
  have hranges := @flatMap_iff bs [] _ _ _ _ _ _ hread hlen.ge
  rw [← haveLen, ← hlen, List.drop_length, eq_self, and_true] at hranges
  rw [Have.bytes, ← List.append_nil (m.ranges.flatMap _), ← hranges]
  exact putMsg_append_iff hfits ((Nat.le_add_right _ _).trans hlen.ge)

theorem haveParse_iff {cap : ℕ} {m : Have} :
    haveParse bs cap = .ok m ↔ m.Ok ∧ m.ranges.length ≤ cap ∧ bs = m.bytes := by
  rw [haveParse, checkHeader_bind]
  dsimp only
  rw [ite_ok_iff, ite_ok_iff, ite_ok_iff, not_not, ite_ok_iff, ite_ok_iff, orFault_ok_iff, Except.ok.injEq]
  constructor
  · rintro ⟨-, hversion, htype, hsome, hfew, hwhole, hcap, hleaves, hranges, rfl⟩
    have hok : Have.Ok ⟨BitVec.ofNat (8 * 32) (getBe bs 2 32), getBe bs 34 8,
        BitVec.ofNat (8 * 16) (getBe bs 42 16),
        readArray (rangeAt bs) rangeLen haveOffRanges (getBe bs 58 2)⟩ :=
      ⟨by rwa [length_readArray], by rw [length_readArray]; exact not_lt.1 hfew,
        fun hz => hleaves (.inl hz), not_lt.1 fun hlt => hleaves (.inr hlt), hranges⟩
    exact ⟨hok, by rw [length_readArray]; exact not_lt.1 hcap,
      (hok.bytes_iff (by rwa [length_readArray])).2 ⟨hversion, htype,
        ⟨(toNat_getBe bs 2 32).symm, rfl, (toNat_getBe bs 42 16).symm, length_readArray.symm,
          trivial⟩, by rw [length_readArray]⟩⟩
  · rintro ⟨hok, hcap, hbytes⟩
    have hlen : bs.length = haveLen m.ranges.length := by rw [hbytes, m.length_bytes]
    obtain ⟨hversion, htype, ⟨hroot, hleaves, hcookie, hcount, -⟩, hranges⟩ :=
      (hok.bytes_iff hlen).1 hbytes
    rw [show getBe bs 58 2 = m.ranges.length from hcount,
      show getBe bs 34 8 = m.leafCount from hleaves, hranges]
    refine ⟨(Nat.le_add_right _ _).trans hlen.ge, hversion, htype, hok.some, not_lt.2 hok.few, hlen,
      not_lt.2 hcap, not_or.2 ⟨hok.leaves, not_lt.2 hok.blob⟩, hok.ranges, ?_⟩
    rw [show BitVec.ofNat (8 * 32) (getBe bs 2 32) = m.root from ofNat_getBe_iff.2 hroot,
      show BitVec.ofNat (8 * 16) (getBe bs 42 16) = m.cookie from ofNat_getBe_iff.2 hcookie]

/-! ## A span sent -/

/-- A span that can be sent. -/
structure Data.Ok (m : Data) : Prop where
  some : m.sealed.length ≠ 0
  few : m.sealed.length ≤ maxSpan
  short : m.proof.length ≤ maxProof
  first : m.first ≤ spoolMaxLeaves
  left : m.sealed.length ≤ spoolMaxLeaves - m.first
  leaves : ∀ one ∈ m.sealed.map List.length, one ≠ 0 ∧ one < 2 ^ 32

section Sums

variable {w a b cap need body proofCount count : ℕ} {long : MsgErr} {ones : List ℕ}

theorem bits_add (h : a + b < 2 ^ w) : (Sizes.bits w).add a b = a + b := Nat.mod_eq_of_lt h

theorem bits_mul (h : a * b < 2 ^ w) : (Sizes.bits w).mul a b = a * b := Nat.mod_eq_of_lt h

theorem bits_sub (ha : a < 2 ^ w) (hb : b ≤ a) : (Sizes.bits w).sub a b = a - b := by
  show (a + (2 ^ w - b % 2 ^ w)) % 2 ^ w = a - b
  rw [Nat.mod_eq_of_lt (hb.trans_lt ha), show a + (2 ^ w - b) = a - b + 2 ^ w by omega,
    Nat.add_mod_right, Nat.mod_eq_of_lt (by omega)]

theorem dataNeed_exact :
    dataNeed .exact proofCount count = dataOffProof + proofCount * hashLen + count * 4 := rfl

/-- What comes before the leaves does not wrap, in a message that is not refused. -/
theorem dataNeed_bits (hproof : proofCount ≤ maxProof) (hcount : count ≤ maxSpan) (hw : 11 ≤ w) :
    dataLens (.bits w) proofCount = dataLens .exact proofCount ∧
      dataNeed (.bits w) proofCount count = dataNeed .exact proofCount count := by
  have hlt : dataOffProof + proofCount * hashLen + count * 4 < 2 ^ w := by
    refine lt_of_lt_of_le ?_ (Nat.pow_le_pow_right (by decide) hw)
    unfold dataOffProof hashLen
    unfold maxProof maxDepth at hproof
    unfold maxSpan at hcount
    omega
  have hlens : dataLens (.bits w) proofCount = dataOffProof + proofCount * hashLen := by
    rw [dataLens, bits_mul (by omega), bits_add (by omega)]
  refine ⟨hlens, ?_⟩
  rw [dataNeed, hlens, bits_mul (by omega), bits_add hlt]
  rfl

/-- **No sum of lengths wraps**: each is held against what is left. -/
theorem addUp_bits (hcap : cap < 2 ^ w) (hbody : body ≤ cap - need) :
    addUp (.bits w) long cap need ones body = addUp .exact long cap need ones body := by
  induction ones generalizing body with
  | nil => rfl
  | cons one ones ih =>
    by_cases hneed : cap < need
    · simp only [addUp, hneed, true_or, ↓reduceIte]
    · rw [addUp, addUp, bits_sub hcap (not_lt.1 hneed),
        bits_sub ((Nat.sub_le _ _).trans_lt hcap) hbody]
      show _ = if one = 0 then _ else if _ then _ else if cap < need ∨ cap - need - body < one then _
        else addUp .exact long cap need ones (body + one)
      split
      next => rfl
      next =>
        split
        next => rfl
        next =>
          split
          next => rfl
          next hleft => rw [bits_add (by omega), ih (by omega)]

/-- The lengths of a message that fits. -/
theorem addUp_iff (hbody : body ≤ cap - need) : addUp .exact long cap need ones body = .ok b ↔
    (∀ one ∈ ones, one ≠ 0 ∧ one < 2 ^ 32) ∧ b = body + ones.sum ∧
      (ones ≠ [] → need + b ≤ cap) := by
  induction ones generalizing body with
  | nil => simp [addUp, eq_comm]
  | cons one ones ih =>
    rw [addUp, ite_ok_iff, ite_ok_iff, ite_ok_iff, List.forall_mem_cons, List.sum_cons]
    show _ ∧ _ ∧ ¬(cap < need ∨ cap - need - body < one) ∧
      addUp .exact long cap need ones (body + one) = _ ↔ _
    constructor
    · rintro ⟨hzero, hlong, hleft, h⟩
      obtain ⟨hones, hb, hle⟩ := (ih (by omega)).1 h
      refine ⟨⟨⟨hzero, not_le.1 hlong⟩, hones⟩, by omega, fun _ => ?_⟩
      cases ones with
      | nil =>
        rw [List.sum_nil] at hb
        omega
      | cons _ _ => exact hle (List.cons_ne_nil _ _)
    · rintro ⟨⟨⟨hzero, hlong⟩, hones⟩, hb, hle⟩
      have hcap := hle (List.cons_ne_nil _ _)
      exact ⟨hzero, not_le.2 hlong, by omega,
        (ih (by omega)).2 ⟨hones, by omega, fun _ => hcap⟩⟩

end Sums

section Leaves

variable {bs rest : Bytes} {start : ℕ}

theorem places_inside {lens : List ℕ} : ∀ place ∈ places start lens,
    place.1 + place.2 ≤ start + lens.sum := by
  induction lens generalizing start with
  | nil => exact fun _ h => (nomatch h)
  | cons len lens ih =>
    rw [places, List.forall_mem_cons, List.sum_cons]
    exact ⟨by omega, fun place h => by have hle := ih place h; omega⟩

theorem length_slices {lens : List ℕ} (h : start + lens.sum ≤ bs.length) :
    ((places start lens).map (slice bs)).map List.length = lens := by
  induction lens generalizing start with
  | nil => rfl
  | cons len lens ih =>
    rw [List.sum_cons] at h
    rw [places, List.map_cons, List.map_cons, ih (by omega), slice, List.length_take,
      List.length_drop]
    exact congrArg (· :: lens) (by omega)

/-- **The leaves are just what is in their places.** -/
theorem flatten_iff {leaves : List Bytes} : bs.drop start = leaves.flatten ++ rest ↔
    (places start (leaves.map List.length)).map (slice bs) = leaves ∧
      bs.drop (start + (leaves.map List.length).sum) = rest := by
  induction leaves generalizing start with
  | nil => exact (and_iff_right rfl).symm
  | cons leaf leaves ih =>
    rw [List.flatten_cons, List.append_assoc, List.map_cons, places, List.map_cons, List.sum_cons,
      List.cons.injEq, and_assoc, ← Nat.add_assoc, ← ih, slice, ← List.drop_drop]
    constructor
    · intro h
      rw [h, List.take_left, List.drop_left]
      exact ⟨rfl, rfl⟩
    · rintro ⟨hleaf, hrest⟩
      rw [← List.take_append_drop leaf.length (bs.drop start), hrest]
      exact congrArg (· ++ _) hleaf

end Leaves

section Spans

variable {bs : Bytes} {w cap outCap n : ℕ} {m : Data} {v : DataView}

theorem Data.length_bytes (m : Data) : m.bytes.length =
    dataNeed .exact m.proof.length m.sealed.length + (m.sealed.map List.length).sum := by
  rw [Data.bytes, List.length_append, List.length_append, List.length_append, putMsg,
    length_putFields, length_flatMap_width fun h _ => length_putBe 32 _,
    length_flatMap_width fun v _ => length_putBe 4 v, List.length_map, List.length_flatten,
    dataNeed_exact, ← Nat.add_assoc, ← Nat.add_assoc]
  rfl

theorem dataEncode_iff : dataEncode .exact m outCap = .ok (bs, n) ↔
    m.Ok ∧ m.bytes.length ≤ outCap ∧ bs = m.bytes ∧ n = m.bytes.length := by
  rw [dataEncode, m.length_bytes, ite_ok_iff, ite_ok_iff, ite_ok_iff, bind_ok_iff]
  constructor
  · rintro ⟨hsome, hfew, hfirst, body, hbody, h⟩
    obtain ⟨hleaves, rfl, -⟩ := (addUp_iff (Nat.zero_le _)).1 hbody
    rw [Nat.zero_add, ite_ok_iff, Except.ok.injEq, Prod.mk.injEq] at h
    exact ⟨⟨hsome, by omega, by omega, by omega, by omega, hleaves⟩, not_lt.1 h.1, h.2.1.symm,
      h.2.2.symm⟩
  · rintro ⟨hok, hcap, rfl, rfl⟩
    exact ⟨hok.some, not_or.2 ⟨not_lt.2 hok.few, not_lt.2 hok.short⟩,
      not_or.2 ⟨not_lt.2 hok.first, not_lt.2 hok.left⟩, _,
      (addUp_iff (Nat.zero_le _)).2 ⟨hok.leaves, (Nat.zero_add _).symm, fun _ => hcap⟩,
      if_neg (not_lt.2 hcap)⟩

/-- What is handed out of a span sent. -/
def Data.view (m : Data) : DataView where
  transfer := m.transfer
  first := m.first
  proofCount := m.proof.length
  sealed := places (dataNeed .exact m.proof.length m.sealed.length) (m.sealed.map List.length)

/-- The proof, the lengths and the leaves are read just where they are written. -/
theorem Data.Ok.bytes_iff (hok : m.Ok)
    (hlen : bs.length = dataNeed .exact m.proof.length m.sealed.length +
      (m.sealed.map List.length).sum) : bs = m.bytes ↔
      getBe bs 0 1 = msgVersion ∧ getBe bs 1 1 = MsgType.data.byte ∧
        FieldsAt bs 2 [(4, m.transfer.toNat), (8, m.first), (8, m.sealed.length),
          (1, m.proof.length)] ∧
        readArray (fun off => getBe bs off 4) 4 (dataLens .exact m.proof.length) m.sealed.length =
          m.sealed.map List.length ∧ m.view.data bs = m := by
  have hfits : FieldsFit [(4, m.transfer.toNat), (8, m.first), (8, m.sealed.length),
      (1, m.proof.length)] :=
    ⟨toNat_lt_be (n := 4) _, lt_of_le_leaves hok.first, hok.few.trans_lt (by decide),
      hok.short.trans_lt (by decide), trivial⟩
  have hneed : dataOffProof + m.proof.length * hashLen + m.sealed.length * 4 ≤ bs.length :=
    (Nat.le_add_right _ _).trans hlen.ge
  have hproof (rest : Bytes) := @flatMap_iff bs rest dataOffProof _
    (fun off => BitVec.ofNat (8 * 32) (getBe bs off 32)) (fun h => putBe 32 h.toNat) hashLen
    m.proof (fun h _ off rest hle => by
      rw [ofNat_getBe_iff]
      exact getBe_iff (toNat_lt_bytes h) hle) (by omega)
  have hlens (rest : Bytes) := @flatMap_iff bs rest (dataLens .exact m.proof.length) _
    (fun off => getBe bs off 4) (putBe 4) 4 (m.sealed.map List.length)
    (fun v hv off rest hle => getBe_iff (hok.leaves v hv).2 hle)
    (by rw [List.length_map]; exact hneed)
  have hleaves := @flatten_iff bs [] (dataNeed .exact m.proof.length m.sealed.length) m.sealed
  rw [← hlen, List.drop_length, eq_self, and_true, List.append_nil] at hleaves
  rw [List.length_map] at hlens
  have hview : m.view.data bs = m ↔ (readArray (fun off => BitVec.ofNat (8 * 32) (getBe bs off 32))
      hashLen dataOffProof m.proof.length = m.proof ∧ m.view.sealed.map (slice bs) = m.sealed) := by
    obtain ⟨transfer, first, proof, sealed⟩ := m
    rw [DataView.data, Data.mk.injEq]
    exact ⟨fun h => h.2.2, fun h => ⟨rfl, rfl, h⟩⟩
  rw [Data.bytes, putMsg_append_iff hfits (show dataOffProof ≤ _ by omega)]
  refine and_congr_right' (and_congr_right' (and_congr_right' ?_))
  rw [hview, and_left_comm]
  exact (hproof _).trans (and_congr_right' ((hlens _).trans (and_congr_right' hleaves)))

theorem Data.Ok.data_view (hok : m.Ok) : m.view.data m.bytes = m :=
  ((hok.bytes_iff m.length_bytes).1 rfl).2.2.2.2

/-- **What the parser of a span sent hands out**, where the sums are the numbers' own. -/
theorem dataParse_iff : dataParse .exact bs cap = .ok v ↔
    ∃ m : Data, m.Ok ∧ m.sealed.length ≤ cap ∧ bs = m.bytes ∧ v = m.view := by
  rw [dataParse, checkHeader_bind]
  dsimp only
  rw [ite_ok_iff, ite_ok_iff, ite_ok_iff, ite_ok_iff, ite_ok_iff, ite_ok_iff, bind_ok_iff]
  constructor
  · rintro ⟨hlen, hversion, htype, hsome, hfew, hcap, hfirst, hshort, hneed, body, hbody, h⟩
    obtain ⟨hleaves, rfl, -⟩ := (addUp_iff (Nat.zero_le _)).1 hbody
    rw [Nat.zero_add, ite_ok_iff, not_not, Except.ok.injEq] at h
    obtain ⟨hwhole, rfl⟩ := h
    generalize hv : DataView.mk _ _ _ _ = v
    have hlens : (v.data bs).sealed.map List.length = readArray (fun off => getBe bs off 4) 4
        (dataLens .exact (getBe bs 22 1)) (getBe bs 14 8) := by
      rw [← hv]
      exact length_slices hwhole.ge
    have hcount := congrArg List.length hlens
    rw [List.length_map, length_readArray] at hcount
    have hproof : (v.data bs).proof.length = getBe bs 22 1 := by
      rw [← hv]
      exact length_readArray
    have hat : (v.data bs).first = getBe bs 6 8 := by
      rw [← hv]
      rfl
    have hok : (v.data bs).Ok := ⟨by rwa [hcount], by rw [hcount]; exact not_lt.1 hfew,
      by rw [hproof]; exact not_lt.1 hshort, by rw [hat]; omega, by rw [hcount, hat]; omega,
      fun one hone => hleaves one (hlens ▸ hone)⟩
    have hview : v = (v.data bs).view := by
      rw [Data.view, hlens, hproof, hcount, ← hv]
      rfl
    refine ⟨_, hok, by rw [hcount]; exact not_lt.1 hcap,
      (hok.bytes_iff (by rw [hlens, hproof, hcount]; exact hwhole)).2 ⟨hversion, htype,
        ⟨?_, hat.symm, hcount.symm, hproof.symm, trivial⟩, by rw [hlens, hproof, hcount],
        by rw [← hview]⟩, hview⟩
    rw [← hv]
    exact (toNat_getBe bs 2 4).symm
  · rintro ⟨m, hok, hcap, rfl, rfl⟩
    have hall := m.length_bytes
    obtain ⟨hversion, htype, ⟨htransfer, hfirst, hcount, hproof, -⟩, hlens, -⟩ :=
      (hok.bytes_iff hall).1 rfl
    rw [show getBe m.bytes 14 8 = m.sealed.length from hcount,
      show getBe m.bytes 6 8 = m.first from hfirst,
      show getBe m.bytes 22 1 = m.proof.length from hproof, hlens]
    have hneed : dataOffProof ≤ m.bytes.length := by
      rw [hall, dataNeed_exact]
      omega
    refine ⟨hneed, hversion, htype, hok.some, not_lt.2 hok.few, not_lt.2 hcap,
      not_or.2 ⟨not_lt.2 hok.first, not_lt.2 hok.left⟩, not_lt.2 hok.short, by omega, _,
      (addUp_iff (Nat.zero_le _)).2 ⟨hok.leaves, (Nat.zero_add _).symm, fun _ => hall.ge⟩, ?_⟩
    rw [if_neg (not_not.2 (show _ = Sizes.exact.add _ _ from hall)),
      show BitVec.ofNat (8 * 4) (getBe m.bytes 2 4) = m.transfer from ofNat_getBe_iff.2 htransfer]
    rfl

theorem dataEncode_bits (hw : 11 ≤ w) (hcap : outCap < 2 ^ w) :
    dataEncode (.bits w) m outCap = dataEncode .exact m outCap := by
  unfold dataEncode
  split
  next => rfl
  next hsome =>
  split
  next => rfl
  next hfew =>
  split
  next => rfl
  next =>
    dsimp only
    rw [(dataNeed_bits (by omega) (by omega) hw).2, addUp_bits hcap (Nat.zero_le _)]
    cases hbody : addUp .exact .tooLarge outCap (dataNeed .exact m.proof.length m.sealed.length)
        (m.sealed.map List.length) 0 with
    | error err => rfl
    | ok body =>
      have hfit := ((addUp_iff (Nat.zero_le _)).1 hbody).2.2 fun hnil =>
        hsome (by rw [← List.length_map, hnil]; rfl)
      show (if outCap < (Sizes.bits w).add _ _ then _ else Except.ok (_, (Sizes.bits w).add _ _)) = _
      rw [bits_add (hfit.trans_lt hcap)]
      rfl

theorem dataParse_bits (hw : 11 ≤ w) (hlen : bs.length < 2 ^ w) :
    dataParse (.bits w) bs cap = dataParse .exact bs cap := by
  unfold dataParse
  refine congrArg (checkHeader bs dataOffProof .data >>= ·) (funext fun _ => ?_)
  dsimp only
  split
  next => rfl
  next hsome =>
  split
  next => rfl
  next hfew =>
  split
  next => rfl
  next =>
  split
  next => rfl
  next =>
  split
  next => rfl
  next hshort =>
    obtain ⟨hlens, hneed⟩ := dataNeed_bits (not_lt.1 hshort) (not_lt.1 hfew) hw
    rw [hlens, hneed, addUp_bits hlen (Nat.zero_le _)]
    split
    next => rfl
    next =>
      cases hbody : addUp .exact .malformed bs.length (dataNeed .exact (getBe bs 22 1) (getBe bs 14 8))
          (readArray (fun off => getBe bs off 4) 4 (dataLens .exact (getBe bs 22 1)) (getBe bs 14 8))
          0 with
      | error err => rfl
      | ok body =>
        have hfit := ((addUp_iff (Nat.zero_le _)).1 hbody).2.2 fun hnil => hsome (by
          have hzero := congrArg List.length hnil
          rwa [length_readArray] at hzero)
        show (if _ ≠ (Sizes.bits w).add _ _ then _ else _) = _
        rw [bits_add (hfit.trans_lt hlen)]
        rfl

end Spans

/-! ## One spelling -/

/-- What is encoded is parsed to what it was, where there is room for it, and what is parsed is
encoded to the bytes it was; a `size_t` is below `size`. -/
structure Spelled {α : Type} (size : ℕ) (encode : α → ℕ → Except MsgErr Bytes)
    (parse : Bytes → Except MsgErr α) (room : α → Prop) : Prop where
  back : ∀ m outCap bs, outCap < size → encode m outCap = .ok bs →
    bs.length ≤ outCap ∧ (room m → parse bs = .ok m)
  again : ∀ bs m outCap, bs.length ≤ outCap → outCap < size → parse bs = .ok m →
    encode m outCap = .ok bs

/-- A message with its bytes, which both the encoder and the parser are about. -/
theorem spelled_of {α : Type} {size : ℕ} {encode : α → ℕ → Except MsgErr Bytes}
    {parse : Bytes → Except MsgErr α} {room Ok : α → Prop} {bytes : α → Bytes}
    (hencode : ∀ m outCap bs, outCap < size →
      (encode m outCap = .ok bs ↔ Ok m ∧ (bytes m).length ≤ outCap ∧ bs = bytes m))
    (hparse : ∀ bs m, bs.length < size → (parse bs = .ok m ↔ Ok m ∧ room m ∧ bs = bytes m)) :
    Spelled size encode parse room where
  back := fun m outCap bs hsize h => by
    obtain ⟨hok, hlen, rfl⟩ := (hencode m outCap bs hsize).1 h
    exact ⟨hlen, fun hroom => (hparse _ m (hlen.trans_lt hsize)).2 ⟨hok, hroom, rfl⟩⟩
  again := fun bs m outCap hlen hsize h => by
    obtain ⟨hok, -, rfl⟩ := (hparse bs m (hlen.trans_lt hsize)).1 h
    exact (hencode m outCap _ hsize).2 ⟨hok, hlen, rfl⟩

/-- The parser of a type accepts the bytes; `size_t` has `w` bits, and there is room for `cap`. -/
def Accepts (w cap : ℕ) (bs : Bytes) : MsgType → Prop
  | .haveQuery => ∃ root, haveQueryParse bs = .ok root
  | .holding => ∃ m, haveParse bs cap = .ok m
  | .want => ∃ m, wantParse bs = .ok m
  | .data => ∃ v, dataParse (.bits w) bs cap = .ok v

theorem Accepts.type {w cap : ℕ} {type : MsgType} (h : Accepts w cap bs type) :
    getBe bs 1 1 = type.byte := by
  cases type <;> obtain ⟨m, h⟩ := h <;> exact (checkHeader_bind.1 h).2.2.1

/-- The messages where a `size_t` has `w` bits: each has one spelling, none is two messages, and
the sums over a span sent are the numbers' own, so that what is handed out is in the message. -/
structure OneSpelling (w : ℕ) : Prop where
  haveQuery : Spelled (2 ^ w) haveQueryEncode haveQueryParse fun _ => True
  holding : ∀ cap, Spelled (2 ^ w) haveEncode (haveParse · cap) fun m => m.ranges.length ≤ cap
  want : Spelled (2 ^ w) wantEncode wantParse fun _ => True
  data : ∀ cap, Spelled (2 ^ w) (fun m outCap => Prod.fst <$> dataEncode (.bits w) m outCap)
    (fun bs => (·.data bs) <$> dataParse (.bits w) bs cap) fun m => m.sealed.length ≤ cap
  apart : ∀ bs cap cap' s t, Accepts w cap bs s → Accepts w cap' bs t → s = t
  encoded : ∀ m outCap, outCap < 2 ^ w →
    dataEncode (.bits w) m outCap = dataEncode .exact m outCap ∧
      ∀ bs n, dataEncode (.bits w) m outCap = .ok (bs, n) → n = bs.length
  parsed : ∀ bs cap, bs.length < 2 ^ w →
    dataParse (.bits w) bs cap = dataParse .exact bs cap ∧
      ∀ v, dataParse (.bits w) bs cap = .ok v →
        dataOffProof + v.proofCount * hashLen ≤ bs.length ∧
          ∀ place ∈ v.sealed, place.1 + place.2 ≤ bs.length

theorem haveQuery_spelled (size : ℕ) :
    Spelled size haveQueryEncode haveQueryParse fun _ => True := by
  refine @spelled_of _ _ _ _ _ (fun _ => True) haveQueryBytes (fun root outCap bs _ => ?_)
    fun bs root _ => haveQueryParse_iff.trans ⟨fun h => ⟨trivial, trivial, h⟩, fun h => h.2.2⟩
  rw [haveQueryEncode, ite_ok_iff, Except.ok.injEq, not_lt, eq_comm, true_and]
  exact Iff.rfl

theorem have_spelled (size cap : ℕ) :
    Spelled size haveEncode (haveParse · cap) fun m => m.ranges.length ≤ cap :=
  @spelled_of _ _ _ _ _ Have.Ok Have.bytes
    (fun m outCap bs _ => by rw [haveEncode_iff, m.length_bytes]) fun bs m _ => haveParse_iff

theorem want_spelled (size : ℕ) : Spelled size wantEncode wantParse fun _ => True := by
  refine @spelled_of _ _ _ _ _ (fun m => spanFault m.first m.count = none) Want.bytes
    (fun m outCap bs _ => ?_)
    fun bs m _ => wantParse_iff.trans ⟨fun h => ⟨h.1, trivial, h.2⟩, fun h => ⟨h.1, h.2.2⟩⟩
  rw [wantEncode, orFault_ok_iff, ite_ok_iff, Except.ok.injEq, not_lt, eq_comm (a := m.bytes)]
  exact Iff.rfl

theorem data_spelled {w : ℕ} (hw : 11 ≤ w) (cap : ℕ) :
    Spelled (2 ^ w) (fun m outCap => Prod.fst <$> dataEncode (.bits w) m outCap)
      (fun bs => (·.data bs) <$> dataParse (.bits w) bs cap) fun m => m.sealed.length ≤ cap := by
  refine @spelled_of _ _ _ _ _ Data.Ok Data.bytes (fun m outCap bs hcap => ?_)
    fun bs m hlen => ?_
  · rw [dataEncode_bits hw hcap, map_ok_iff]
    constructor
    · rintro ⟨⟨bs', n⟩, h, rfl⟩
      obtain ⟨hok, hfit, hbytes, -⟩ := dataEncode_iff.1 h
      exact ⟨hok, hfit, hbytes⟩
    · rintro ⟨hok, hfit, rfl⟩
      exact ⟨_, dataEncode_iff.2 ⟨hok, hfit, rfl, rfl⟩, rfl⟩
  · rw [dataParse_bits hw hlen, map_ok_iff]
    constructor
    · rintro ⟨v, h, rfl⟩
      obtain ⟨m, hok, hroom, rfl, rfl⟩ := dataParse_iff.1 h
      rw [hok.data_view]
      exact ⟨hok, hroom, rfl⟩
    · rintro ⟨hok, hroom, rfl⟩
      exact ⟨m.view, dataParse_iff.2 ⟨m, hok, hroom, rfl, rfl⟩, hok.data_view⟩

theorem oneSpelling {w : ℕ} (hw : 11 ≤ w) : OneSpelling w where
  haveQuery := haveQuery_spelled _
  holding := have_spelled _
  want := want_spelled _
  data := data_spelled hw
  apart := fun bs cap cap' s t hs ht => by
    have hbyte : s.byte = t.byte := hs.type.symm.trans ht.type
    cases s <;> cases t <;> first | rfl | exact absurd hbyte (by decide)
  encoded := fun m outCap hcap => by
    refine ⟨dataEncode_bits hw hcap, fun bs n h => ?_⟩
    rw [dataEncode_bits hw hcap] at h
    obtain ⟨-, -, rfl, hn⟩ := dataEncode_iff.1 h
    exact hn
  parsed := fun bs cap hlen => by
    refine ⟨dataParse_bits hw hlen, fun v h => ?_⟩
    rw [dataParse_bits hw hlen] at h
    obtain ⟨m, -, -, rfl, rfl⟩ := dataParse_iff.1 h
    have hall := m.length_bytes
    refine ⟨?_, fun place hplace => (places_inside place hplace).trans hall.ge⟩
    rw [hall, dataNeed_exact, show m.view.proofCount = m.proof.length from rfl]
    omega

/-- **The filestore messages have one spelling each**, with a `size_t` of 32 bits and of 64. -/
theorem one_spelling : OneSpelling 32 ∧ OneSpelling 64 :=
  ⟨oneSpelling (by decide), oneSpelling (by decide)⟩

end Spool
end Fuzznet
