/-
# Group acts

`node/group_act.h`, `node/group_act.c`, and of `node/contact_devices.c` the entry an act
carries as its signer's proof.  An act is one entry of a group's log: its place, the act it
follows, what it does, and the host that signed it.

| off | size | field |
| ---: | ---: | --- |
| 0 | 1 | version |
| 1 | 1 | object tag |
| 2 | 1 | kind |
| 3 | 4 | place |
| 7 | 32 | group |
| 39 | 32 | the act before |
| 71 | 32 | subject |
| 103 | 1 | setting |
| 104 | 8 | value |
| 112 | 8 | when |
| 120 | 2 | the payload's length, and it |
| | 2 | the signer's length, and it |
| | 64 | signature |

An act has one encoding: what decodes is what encodes to the same bytes
(`actDecode_iff`), so two acts of one hash are one act where the hash has no
collision.
-/

import Fuzznet.Chain.Verify
import Fuzznet.Session.Derive
import Fuzznet.Wire.Codec

namespace Fuzznet
namespace Groups

open Wire Chain
open Session (bytes32)

/-! ## The signer -/

/-- `FZN_PREKEY_LEN_TOTAL`: version, tag, host, prekey, when, signature. -/
def prekeyLen : ℕ := 138

/-- `FZN_PREKEY_BODY_LEN`. -/
def prekeyBodyLen : ℕ := 74

/-- `FZN_OBJECT_PREKEY` and `FZN_OBJECT_GROUP_ACT`. -/
def prekeyTag : UInt8 := 132
def groupActTag : UInt8 := 150

/-- `FZN_CONTACT_DEVICE_VERSION`, `FZN_CONTACT_DEVICE_ADDRESS_MAX`,
`FZN_CONTACT_DEVICE_HEAD_LEN` and `FZN_CONTACT_DEVICE_MAX`. -/
def deviceVersion : UInt8 := 1
def deviceAddressMax : ℕ := 253
def deviceHeadLen : ℕ := 1 + 32 + prekeyLen
def deviceMax : ℕ := deviceHeadLen + 1 + deviceAddressMax + 2 + 1 + chainMaxHops * hopLen

/-- `fzn_contact_device_t`: a device of `owner`'s by its prekey record and a chain, `hops`
being the bytes of `hopCount` of them. -/
structure ContactDevice where
  owner : Key
  record : Bytes
  address : Bytes
  port : ℕ
  hopCount : ℕ
  hops : Bytes
  recordLen : record.length = prekeyLen
  hopsLen : hops.length = hopCount * hopLen
  deriving DecidableEq

/-- `fzn_contact_device_key`: its prekey record's host. -/
def deviceKey (d : ContactDevice) : Key := BitVec.ofNat 256 (getBe d.record 2 32)

/-- `address_ok`, of an address that is not empty. -/
def addressOk (a : Bytes) : Bool :=
  a.all fun c => (97 ≤ c && c ≤ 122) || (65 ≤ c && c ≤ 90) || (48 ≤ c && c ≤ 57) || c == 46 ||
    c == 45 || c == 58

/-- What an entry's address and port have to be: both there or neither. -/
def placeOk (address : Bytes) (port : ℕ) : Bool :=
  (port == 0) == (address.length == 0) &&
    (address.length == 0 || (address.length ≤ deviceAddressMax && addressOk address))

/-- `fzn_contact_device_encode`, into `cap` bytes. -/
def deviceEncode (d : ContactDevice) (cap : ℕ) : Option Bytes :=
  if chainMaxHops < d.hopCount ∨ placeOk d.address d.port = false then none
  else if cap < deviceHeadLen + 1 + d.address.length + 2 + 1 + d.hopCount * hopLen then none
  else some (deviceVersion :: bytes32 d.owner ++ d.record ++ UInt8.ofNat d.address.length ::
    d.address ++ putBe 2 d.port ++ UInt8.ofNat d.hopCount :: d.hops)

/-- The shape `fzn_prekey_open` asks of a record of its length. -/
def prekeyShape (record : Bytes) : Bool :=
  record.getD 0 0 == signedVersion && record.getD 1 0 == prekeyTag

/-- `len` bytes from `off`. -/
def cut (bs : Bytes) (off len : ℕ) : Bytes := (bs.drop off).take len

theorem length_cut {bs : Bytes} {off len : ℕ} (h : off + len ≤ bs.length) :
    (cut bs off len).length = len := by
  unfold cut
  rw [List.length_take, List.length_drop]
  omega

/-- `fzn_contact_device_decode`. -/
def deviceDecode (bs : Bytes) : Option ContactDevice :=
  let addressLen := (bs.getD deviceHeadLen 0).toNat
  let behind := deviceHeadLen + 1 + addressLen
  let hopCount := (bs.getD (behind + 2) 0).toNat
  if hroom : bs.length < deviceHeadLen + 1 then none
  else if bs.getD 0 0 ≠ deviceVersion then none
  else if prekeyShape (cut bs 33 prekeyLen) = false then none
  else if deviceAddressMax < addressLen ∨ bs.length < behind + 3 then none
  else if hlen : chainMaxHops < hopCount ∨ bs.length ≠ behind + 3 + hopCount * hopLen then none
  else if placeOk (cut bs (deviceHeadLen + 1) addressLen) (getBe bs behind 2) = false then none
  else some {
    owner := BitVec.ofNat 256 (getBe bs 1 32)
    record := cut bs 33 prekeyLen
    address := cut bs (deviceHeadLen + 1) addressLen
    port := getBe bs behind 2
    hopCount := hopCount
    hops := cut bs (behind + 3) (hopCount * hopLen)
    recordLen := length_cut (by rw [deviceHeadLen] at hroom; omega)
    hopsLen := length_cut (by rw [not_or, not_not] at hlen; exact hlen.2.ge) }

/-- The hops of an entry, each opened. -/
def deviceHops (d : ContactDevice) : Except ChainErr (List Hop) :=
  (List.range d.hopCount).mapM fun i => hopOpen (cut d.hops (i * hopLen) hopLen)

/-- `fzn_contact_device_verify`: the record is its host's, and its host is the owner or the
grantee of a chain from the owner for `member`, good at `now`. -/
def deviceVerify (d : ContactDevice) (sign : SignOps) (member : CapId) (now : UInt64) : Bool :=
  if chainMaxHops < d.hopCount ∨ prekeyShape d.record = false then false
  else if sign.verify (deviceKey d) (d.record.take prekeyBodyLen)
      (BitVec.ofNat 512 (getBe d.record prekeyBodyLen 64)) = false then false
  else if d.hopCount = 0 then decide (deviceKey d = d.owner)
  else
    match deviceHops d with
    | .error _ => false
    | .ok hops =>
      match chainVerify hops d.owner member now sign none none with
      | .error _ => false
      | .ok chain => decide (chain.grantee = deviceKey d)

/-! ## Acts -/

/-- `fzn_group_act_kind_t`. -/
inductive ActKind
  | create
  | add
  | remove
  | leave
  | adminAdd
  | adminRemove
  | approve
  | set
  | host
  | keys
  deriving DecidableEq, Repr

/-- The byte of a kind. -/
def ActKind.byte : ActKind → UInt8
  | .create => 1
  | .add => 2
  | .remove => 3
  | .leave => 4
  | .adminAdd => 5
  | .adminRemove => 6
  | .approve => 7
  | .set => 8
  | .host => 9
  | .keys => 10

/-- `kind_known`: the kind of a byte. -/
def kindKnown (b : UInt8) : Option ActKind :=
  if b = 1 then some .create
  else if b = 2 then some .add
  else if b = 3 then some .remove
  else if b = 4 then some .leave
  else if b = 5 then some .adminAdd
  else if b = 6 then some .adminRemove
  else if b = 7 then some .approve
  else if b = 8 then some .set
  else if b = 9 then some .host
  else if b = 10 then some .keys
  else none

theorem byte_of_kindKnown {b : UInt8} {k : ActKind} (h : kindKnown b = some k) : k.byte = b := by
  unfold kindKnown at h
  split_ifs at h <;> (obtain rfl := Option.some.inj h; subst_vars; rfl)

theorem kindKnown_byte (k : ActKind) : kindKnown k.byte = some k := by
  cases k <;> rfl

/-- `fzn_group_act_t`. -/
structure GroupAct where
  kind : ActKind
  seq : ℕ
  group : Bytes32
  prev : Bytes32
  subject : Bytes32
  setting : UInt8
  value : ℕ
  madeAt : UInt64
  payload : Bytes
  signer : ContactDevice
  sig : Sig
  deriving DecidableEq

/-- `FZN_GROUP_ACT_VERSION`, `FZN_GROUP_ACT_PAYLOAD_MAX`, `FZN_GROUP_ACT_HEAD_LEN` and
`FZN_GROUP_ACT_MAX`. -/
def actVersion : UInt8 := 1
def actPayloadMax : ℕ := 4096
def actHeadLen : ℕ := 1 + 1 + 1 + 4 + 32 + 32 + 32 + 1 + 8 + 8 + 2 + 2
def actMax : ℕ := actHeadLen + actPayloadMax + deviceMax + 64

/-- `body`, into `cap` bytes: what the signature covers. -/
def actBody (a : GroupAct) (cap : ℕ) : Option Bytes :=
  if actPayloadMax < a.payload.length ∨ cap < actHeadLen + a.payload.length then none
  else
    match deviceEncode a.signer (cap - actHeadLen - a.payload.length) with
    | none => none
    | some signer =>
      if 0xffff < signer.length then none
      else some (actVersion :: groupActTag :: a.kind.byte :: putBe 4 a.seq ++ bytes32 a.group ++
        bytes32 a.prev ++ bytes32 a.subject ++ a.setting :: putBe 8 a.value ++
        putBe 8 a.madeAt.toNat ++ putBe 2 a.payload.length ++ a.payload ++
        putBe 2 signer.length ++ signer)

/-- `fzn_group_act_encode`, into `FZN_GROUP_ACT_MAX` bytes. -/
def actEncode (a : GroupAct) : Option Bytes :=
  match actBody a actMax with
  | none => none
  | some body => if actMax < body.length + 64 then none else some (body ++ putBe 64 a.sig.toNat)

/-- `fzn_group_act_decode`. -/
def actDecode (bs : Bytes) : Option GroupAct :=
  let payloadLen := getBe bs 120 2
  let behind := 122 + payloadLen
  let signerLen := getBe bs behind 2
  if bs.length < actHeadLen + 64 ∨ bs.getD 0 0 ≠ actVersion ∨ bs.getD 1 0 ≠ groupActTag then none
  else
    match kindKnown (bs.getD 2 0) with
    | none => none
    | some kind =>
      if actPayloadMax < payloadLen ∨ bs.length < behind + 2 then none
      else if bs.length ≠ behind + 2 + signerLen + 64 then none
      else
        match deviceDecode (cut bs (behind + 2) signerLen) with
        | none => none
        | some signer => some {
            kind := kind
            seq := getBe bs 3 4
            group := BitVec.ofNat 256 (getBe bs 7 32)
            prev := BitVec.ofNat 256 (getBe bs 39 32)
            subject := BitVec.ofNat 256 (getBe bs 71 32)
            setting := bs.getD 103 0
            value := getBe bs 104 8
            madeAt := UInt64.ofNat (getBe bs 112 8)
            payload := cut bs 122 payloadLen
            signer := signer
            sig := BitVec.ofNat 512 (getBe bs (behind + 2 + signerLen) 64) }

/-- `fzn_group_act_verify`. -/
def actVerify (a : GroupAct) (sign : SignOps) (member : CapId) : Bool :=
  deviceVerify a.signer sign member a.madeAt &&
    (actBody a actMax).any fun body => sign.verify (deviceKey a.signer) body a.sig

/-- `fzn_group_act_hash`. -/
def actHash (a : GroupAct) (hash : HashOps) : Option Bytes32 := (actEncode a).bind hash.hash

/-! ## One act, one encoding -/

section Codec

variable {bs : Bytes} {off n : ℕ}

/-- What is cut, and what is left behind it. -/
theorem cut_append_drop {m : ℕ} (h : off + n = m) : cut bs off n ++ bs.drop m = bs.drop off := by
  rw [← h, cut, ← List.drop_drop, List.take_append_drop]

theorem cut_eq_drop (h : bs.length = off + n) : cut bs off n = bs.drop off := by
  unfold cut
  rw [List.take_of_length_le (by rw [List.length_drop]; omega)]

theorem putBe_toNat (h : off + n ≤ bs.length) :
    putBe n (BitVec.ofNat (8 * n) (getBe bs off n)).toNat = cut bs off n := by
  rw [toNat_getBe, putBe_getBe h, cut]

theorem bytes32_cut (h : off + 32 ≤ bs.length) :
    bytes32 (BitVec.ofNat 256 (getBe bs off 32)) = cut bs off 32 :=
  putBe_toNat h

theorem putBe_word (h : off + 8 ≤ bs.length) :
    putBe 8 (UInt64.ofNat (getBe bs off 8)).toNat = cut bs off 8 :=
  putBe_toNat h

theorem putBe_sig (h : off + 64 ≤ bs.length) :
    putBe 64 (BitVec.ofNat 512 (getBe bs off 64)).toNat = cut bs off 64 :=
  putBe_toNat h

variable {d : ContactDevice} {cap : ℕ} {a : GroupAct}

theorem length_le_of_deviceDecode (h : deviceDecode bs = some d) : bs.length ≤ deviceMax := by
  unfold deviceDecode at h
  dsimp only at h
  split_ifs at h with hroom hversion hshape haddress hlen hplace
  rw [not_or, not_lt, not_lt] at haddress
  rw [not_or, not_lt, not_not] at hlen
  have hhops := Nat.mul_le_mul_right hopLen hlen.1
  unfold deviceMax
  omega

/-- **An entry read back encodes to its bytes**, where there is room for them. -/
theorem deviceEncode_of_decode (h : deviceDecode bs = some d) (hcap : bs.length ≤ cap) :
    deviceEncode d cap = some bs := by
  unfold deviceDecode at h
  dsimp only at h
  split_ifs at h with hroom hversion hshape haddress hlen hplace
  obtain rfl := Option.some.inj h
  rw [not_or, not_lt, not_lt] at haddress
  rw [not_or, not_lt, not_not] at hlen
  obtain ⟨haddressMax, haddressRoom⟩ := haddress
  obtain ⟨hhops, hlen⟩ := hlen
  have hhead : deviceHeadLen = 171 := rfl
  have hprekey : prekeyLen = 138 := rfl
  have haddressLen : (cut bs (deviceHeadLen + 1) (bs.getD deviceHeadLen 0).toNat).length =
      (bs.getD deviceHeadLen 0).toNat := length_cut (by omega)
  unfold deviceEncode
  dsimp only
  rw [if_neg (by rw [not_or, not_lt]; exact ⟨hhops, hplace⟩), haddressLen,
    if_neg (by omega), bytes32_cut (by omega), putBe_getBe (by omega), ← cut,
    UInt8.ofNat_toNat, UInt8.ofNat_toNat, @cut_eq_drop bs (deviceHeadLen + 1 + _ + 3) _ hlen]
  rw [not_not] at hversion
  rw [← hversion]
  simp only [List.append_assoc, List.cons_append]
  rw [getD_cons_drop (by omega) (by omega), cut_append_drop (by omega),
    cut_append_drop (by omega), getD_cons_drop (by omega) (by omega),
    cut_append_drop (by omega), cut_append_drop (by omega), getD_cons_drop (by omega) (by omega),
    List.drop_zero]

/-- What is signed and a signature of 64 bytes, within the room for them. -/
theorem signed_of_append {body tail : Bytes} (h : body ++ tail = bs) (htail : tail.length = 64)
    (hmax : bs.length ≤ actMax) :
    (if actMax < body.length + 64 then none else some (body ++ tail)) = some bs := by
  have hlen := congrArg List.length h
  rw [List.length_append, htail] at hlen
  rw [if_neg (by omega), h]

/-- **An act read back encodes to its bytes.** -/
theorem actEncode_of_decode (h : actDecode bs = some a) : actEncode a = some bs := by
  unfold actDecode at h
  dsimp only at h
  split at h
  · cases h
  next hhead =>
  split at h
  · cases h
  next kind hkind =>
  split at h
  · cases h
  next hpayload =>
  split at h
  · cases h
  next hlen =>
  split at h
  · cases h
  next signer hsigner =>
  obtain rfl := Option.some.inj h
  have hbyte := byte_of_kindKnown hkind
  rw [not_or, not_or, not_not, not_not] at hhead
  rw [not_or, not_lt, not_lt] at hpayload
  rw [not_not] at hlen
  obtain ⟨hroom, hversion, htag⟩ := hhead
  obtain ⟨hmax, hpayload⟩ := hpayload
  have hact : actHeadLen = 124 := rfl
  have hpayloadLen : (cut bs 122 (getBe bs 120 2)).length = getBe bs 120 2 :=
    length_cut (by omega)
  have hsignerLen : (cut bs (122 + getBe bs 120 2 + 2) (getBe bs (122 + getBe bs 120 2) 2)).length =
      getBe bs (122 + getBe bs 120 2) 2 := length_cut (by omega)
  have hsignerMax : getBe bs (122 + getBe bs 120 2) 2 < 65536 := getBe_lt bs _ 2
  have hdeviceMax := length_le_of_deviceDecode hsigner
  have hactMax : actMax = actHeadLen + actPayloadMax + deviceMax + 64 := rfl
  have hdevice := @deviceEncode_of_decode _ _ (actMax - actHeadLen - getBe bs 120 2) hsigner
    (by omega)
  unfold actEncode actBody
  dsimp only
  rw [hpayloadLen, hdevice]
  dsimp only
  rw [if_neg (by omega), hsignerLen, if_neg (by omega)]
  dsimp only
  refine signed_of_append ?_ (length_putBe 64 _) (by omega)
  rw [← hversion, ← htag, hbyte, putBe_sig (by omega), putBe_word (by omega), putBe_getBe (by omega),
    putBe_getBe (by omega), putBe_getBe (by omega), putBe_getBe (by omega), bytes32_cut (by omega),
    bytes32_cut (by omega), bytes32_cut (by omega), ← cut, ← cut, ← cut, ← cut,
    cut_eq_drop (n := 64) (by omega)]
  simp only [List.append_assoc, List.cons_append]
  rw [cut_append_drop (by omega), cut_append_drop (by omega), cut_append_drop (by omega),
    cut_append_drop (by omega), cut_append_drop (by omega), cut_append_drop (by omega),
    getD_cons_drop (by omega) (by omega), cut_append_drop (by omega), cut_append_drop (by omega),
    cut_append_drop (by omega), cut_append_drop (by omega), getD_cons_drop (by omega) (by omega),
    getD_cons_drop (by omega) (by omega), getD_cons_drop (by omega) (by omega), List.drop_zero]

/-! ## What is encoded is read back -/

theorem cut_of_drop {field rest : Bytes} (h : bs.drop off = field ++ rest)
    (hlen : field.length = n) : cut bs off n = field := by
  unfold cut
  rw [h, ← hlen, List.take_left]

theorem bytes32_of_drop {b : Bytes32} {rest : Bytes} (h : bs.drop off = bytes32 b ++ rest) :
    BitVec.ofNat 256 (getBe bs off 32) = b := by
  rw [getBe_of_drop h (toNat_lt_bytes b)]
  exact BitVec.eq_of_toNat_eq (by rw [BitVec.toNat_ofNat, Nat.mod_eq_of_lt b.isLt])

/-- An entry is read back, its port being one and its record a prekey's. -/
theorem deviceDecode_encode (h : deviceEncode d cap = some bs) (hport : d.port < 256 ^ 2)
    (hshape : prekeyShape d.record = true) : deviceDecode bs = some d := by
  unfold deviceEncode at h
  split at h
  · cases h
  next hwell =>
  split at h
  · cases h
  rw [not_or, not_lt, Bool.not_eq_false] at hwell
  obtain ⟨hhops, hplace⟩ := hwell
  have haddressMax : d.address.length ≤ deviceAddressMax := by
    unfold placeOk at hplace
    rw [Bool.and_eq_true, Bool.or_eq_true, Bool.and_eq_true, decide_eq_true_iff] at hplace
    rcases hplace.2 with hzero | ⟨hle, -⟩
    · rw [beq_iff_eq.1 hzero]
      exact Nat.zero_le _
    · exact hle
  have hhead : deviceHeadLen = 171 := rfl
  have hprekey : prekeyLen = 138 := rfl
  have hmaxHops : chainMaxHops ≤ 255 := by decide
  have hmaxAddress : deviceAddressMax = 253 := rfl
  have hrecordLen := d.recordLen
  have hhopsLen := d.hopsLen
  obtain rfl := Option.some.inj h
  simp only [List.append_assoc, List.cons_append]
  generalize hbs : (deviceVersion :: (bytes32 d.owner ++ (d.record ++
    UInt8.ofNat d.address.length :: (d.address ++ (putBe 2 d.port ++
      UInt8.ofNat d.hopCount :: d.hops))))) = bs
  have hlen : bs.length = 1 + 32 + 138 + 1 + d.address.length + 2 + 1 + d.hops.length := by
    rw [← hbs]
    simp only [List.length_cons, List.length_append, length_putBe, Session.length_bytes32,
      d.recordLen, hprekey]
    omega
  have h₀ : bs.drop 0 = _ := hbs.symm
  have h₁ : bs.drop 1 = _ := drop_next_cons h₀ rfl
  have h₃₃ : bs.drop 33 = _ := drop_next h₁ (by rw [Session.length_bytes32])
  have h₁₇₁ : bs.drop 171 = _ := drop_next h₃₃ (by rw [d.recordLen]; rfl)
  have h₁₇₂ : bs.drop 172 = _ := drop_next_cons h₁₇₁ rfl
  have hport' : bs.drop (172 + d.address.length) = _ := drop_next h₁₇₂ rfl
  have hcount : bs.drop (172 + d.address.length + 2) = _ :=
    drop_next hport' (by rw [length_putBe])
  have hhops' : bs.drop (172 + d.address.length + 3) = _ := drop_next_cons hcount rfl
  have haddressByte : (UInt8.ofNat d.address.length).toNat = d.address.length := by
    rw [UInt8.toNat_ofNat']
    exact Nat.mod_eq_of_lt (by omega)
  have hhopsByte : (UInt8.ofNat d.hopCount).toNat = d.hopCount := by
    rw [UInt8.toNat_ofNat']
    exact Nat.mod_eq_of_lt (by omega)
  have haddress : (bs.getD deviceHeadLen 0).toNat = d.address.length := by
    rw [show deviceHeadLen = 171 from rfl, getD_of_drop h₁₇₁, haddressByte]
  have hcountAt : (bs.getD (deviceHeadLen + 1 + d.address.length + 2) 0).toNat = d.hopCount := by
    rw [show deviceHeadLen + 1 = 172 from rfl, getD_of_drop hcount, hhopsByte]
  have hrecord : cut bs 33 prekeyLen = d.record := cut_of_drop h₃₃ d.recordLen
  have haddressAt : cut bs (deviceHeadLen + 1) d.address.length = d.address :=
    cut_of_drop h₁₇₂ rfl
  have hportAt : getBe bs (deviceHeadLen + 1 + d.address.length) 2 = d.port :=
    getBe_of_drop hport' hport
  have hhopsAt : cut bs (deviceHeadLen + 1 + d.address.length + 3) (d.hopCount * hopLen) =
      d.hops := by
    exact cut_of_drop (hhops'.trans (List.append_nil d.hops).symm) d.hopsLen
  unfold deviceDecode
  dsimp only
  rw [dif_neg (by omega), if_neg (not_not.2 (getD_of_drop h₀)), if_neg (by rw [hrecord, hshape]; decide),
    if_neg (by rw [haddress]; omega), dif_neg (by rw [haddress, hcountAt]; omega),
    if_neg (by rw [haddress, haddressAt, hportAt, hplace]; decide)]
  cases d
  rw [Option.some.injEq, ContactDevice.mk.injEq]
  dsimp only at *
  rw [haddress, hcountAt]
  exact ⟨bytes32_of_drop h₁, hrecord, haddressAt, hportAt, rfl, hhopsAt⟩

/-- **An act encoded is read back**, its fields being as wide as theirs are. -/
theorem actDecode_encode (h : actEncode a = some bs) (hseq : a.seq < 256 ^ 4)
    (hvalue : a.value < 256 ^ 8) (hport : a.signer.port < 256 ^ 2)
    (hshape : prekeyShape a.signer.record = true) : actDecode bs = some a := by
  unfold actEncode actBody at h
  split_ifs at h with hpayload
  rw [not_or, not_lt] at hpayload
  cases hdevice : deviceEncode a.signer (actMax - actHeadLen - a.payload.length) with
  | none =>
    rw [hdevice] at h
    cases h
  | some signer =>
    rw [hdevice] at h
    dsimp only at h
    split_ifs at h with hlong
    dsimp only at h
    split_ifs at h
    have hsigner := deviceDecode_encode hdevice hport hshape
    have hpayloadMax : actPayloadMax = 4096 := rfl
    have hhead : actHeadLen = 124 := rfl
    obtain rfl := Option.some.inj h
    simp only [List.append_assoc, List.cons_append]
    generalize hbs : (actVersion :: groupActTag :: a.kind.byte :: (putBe 4 a.seq ++
      (bytes32 a.group ++ (bytes32 a.prev ++ (bytes32 a.subject ++ a.setting :: (putBe 8 a.value ++
        (putBe 8 a.madeAt.toNat ++ (putBe 2 a.payload.length ++ (a.payload ++
          (putBe 2 signer.length ++ (signer ++ putBe 64 a.sig.toNat))))))))))) = bs
    have hlen : bs.length = 122 + a.payload.length + 2 + signer.length + 64 := by
      rw [← hbs]
      simp only [List.length_cons, List.length_append, length_putBe, Session.length_bytes32]
      omega
    have h₀ : bs.drop 0 = _ := hbs.symm
    have h₁ : bs.drop 1 = _ := drop_next_cons h₀ rfl
    have h₂ : bs.drop 2 = _ := drop_next_cons h₁ rfl
    have h₃ : bs.drop 3 = _ := drop_next_cons h₂ rfl
    have h₇ : bs.drop 7 = _ := drop_next h₃ (by rw [length_putBe])
    have h₃₉ : bs.drop 39 = _ := drop_next h₇ (by rw [Session.length_bytes32])
    have h₇₁ : bs.drop 71 = _ := drop_next h₃₉ (by rw [Session.length_bytes32])
    have h₁₀₃ : bs.drop 103 = _ := drop_next h₇₁ (by rw [Session.length_bytes32])
    have h₁₀₄ : bs.drop 104 = _ := drop_next_cons h₁₀₃ rfl
    have h₁₁₂ : bs.drop 112 = _ := drop_next h₁₀₄ (by rw [length_putBe])
    have h₁₂₀ : bs.drop 120 = _ := drop_next h₁₁₂ (by rw [length_putBe])
    have h₁₂₂ : bs.drop 122 = _ := drop_next h₁₂₀ (by rw [length_putBe])
    have hsignerLen : bs.drop (122 + a.payload.length) = _ := drop_next h₁₂₂ rfl
    have hsignerAt : bs.drop (122 + a.payload.length + 2) = _ :=
      drop_next hsignerLen (by rw [length_putBe])
    have hsig : bs.drop (122 + a.payload.length + 2 + signer.length) = _ :=
      drop_next hsignerAt rfl
    have hpayloadLen : getBe bs 120 2 = a.payload.length :=
      getBe_of_drop h₁₂₀ (by omega)
    have hsignerRead : getBe bs (122 + a.payload.length) 2 = signer.length :=
      getBe_of_drop hsignerLen (by omega)
    unfold actDecode
    dsimp only
    rw [hpayloadLen, hsignerRead, getD_of_drop h₂, kindKnown_byte,
      if_neg (by
        rw [not_or, not_or, not_not, not_not]
        exact ⟨by omega, getD_of_drop h₀, getD_of_drop h₁⟩)]
    dsimp only
    rw [if_neg (by omega), if_neg (by omega), cut_of_drop hsignerAt rfl, hsigner]
    dsimp only
    rw [getBe_of_drop h₃ hseq, bytes32_of_drop h₇, bytes32_of_drop h₃₉, bytes32_of_drop h₇₁,
      getD_of_drop h₁₀₃, getBe_of_drop h₁₀₄ hvalue,
      getBe_of_drop h₁₁₂ (toNat_lt_be64 a.madeAt), UInt64.ofNat_toNat, cut_of_drop h₁₂₂ rfl,
      getBe_of_drop (hsig.trans (List.append_nil _).symm) (toNat_lt_sig a.sig),
      BitVec.ofNat_toNat, BitVec.setWidth_eq]

theorem written_of_deviceDecode (h : deviceDecode bs = some d) :
    d.port < 256 ^ 2 ∧ prekeyShape d.record = true := by
  unfold deviceDecode at h
  dsimp only at h
  split_ifs at h with hroom hversion hshape haddress hlen hplace
  obtain rfl := Option.some.inj h
  exact ⟨getBe_lt .., Bool.eq_true_of_not_eq_false hshape⟩

/-- **An act is decoded from its own encoding, and from nothing else**, where its fields have
the widths they are written in and its signer's record is one. -/
theorem actDecode_iff : actDecode bs = some a ↔ actEncode a = some bs ∧ a.seq < 256 ^ 4 ∧
    a.value < 256 ^ 8 ∧ a.signer.port < 256 ^ 2 ∧ prekeyShape a.signer.record = true := by
  constructor
  · intro h
    refine ⟨actEncode_of_decode h, ?_⟩
    unfold actDecode at h
    dsimp only at h
    iterate 5
      split at h
      · cases h
    next signer hsigner =>
    obtain rfl := Option.some.inj h
    exact ⟨getBe_lt .., getBe_lt .., written_of_deviceDecode hsigner⟩
  · rintro ⟨h, hseq, hvalue, hport, hshape⟩
    exact actDecode_encode h hseq hvalue hport hshape

end Codec

end Groups
end Fuzznet
