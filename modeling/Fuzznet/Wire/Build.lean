/-
# A frame built and sealed

The sending half of `wire/seal.c`: `fzn_seal_build` and `fzn_seal_close`.  What can be
refused is refused before the caller's buffer is written, the nonce drawn and the
commitment derived from it first; then the frame is laid out as in `Wire.Seal`, its
capability and payload in clear, and sealed in place.  Where the AEAD refuses, the frame
is wiped.

A frame whose argument is in bounds has the shape that is checked before it is sealed
(`views_draft`), so the AEAD is the only refusal behind the first write
(`sealBuild_cases`), and what is built is the layout with the text sealed
(`sealedFrame`).  It opens to what was given whatever hop header of version 1 stands in
front (`sealOpen_behind`), and every frame that opens is laid out so (`sendOf`).
-/

import Fuzznet.Wire.Codec
import Fuzznet.Wire.Seal
import Fuzznet.Session.Derive

namespace Fuzznet
namespace Wire

open Session (bytes32)

/-- `fzn_seal_err_t`, the codes of the sending side. -/
inductive SendErr
  | malformed
  | shape
  | noNonce
  | capacity
  | hash
  | aead
  deriving DecidableEq, Repr

/-- `fzn_send_t`. -/
structure Send where
  sender : Bytes32
  capability : CapId
  payload : Bytes
  expiresAt : UInt64
  msg : UInt32
  index : UInt16
  chunks : UInt16
  kind : UInt8
  hops : UInt8
  serviceHint : UInt32
  deriving DecidableEq

/-- A call of the AEAD's `seal`: key, nonce, associated data and the text in clear. -/
structure SealCall where
  key : Bytes32
  nonce : BitVec 192
  ad : Bytes
  text : Bytes

/-- The sealing half of `fzn_aead_ops_t`: the text in place, and the tag beside it. -/
structure AeadSeal where
  sealText : SealCall → Option (Bytes × Bytes)
  inPlace : ∀ call text tag, sealText call = some (text, tag) →
    text.length = call.text.length ∧ tag.length = 16

/-- The hop header: version 1, the budget, the hint and a reserved zero. -/
def hopBytes (hops : UInt8) (hint : ℕ) : Bytes := [1, hops] ++ putBe 2 hint ++ [0]

/-- The head. -/
def headBytes (what : Send) (nonce : BitVec 192) (commitment : BitVec 128) : Bytes :=
  putBe 1 what.kind.toNat ++ (bytes32 what.sender ++ (putBe 8 what.expiresAt.toNat ++
    (putBe 24 nonce.toNat ++ (putBe 16 commitment.toNat ++ (putBe 4 what.msg.toNat ++
      (putBe 2 what.index.toNat ++ (putBe 2 what.chunks.toNat ++
        putBe 2 what.payload.length)))))))

/-- The sealed interior in clear: the capability and the payload. -/
def textBytes (what : Send) : Bytes := bytes32 what.capability.b ++ what.payload

/-- The frame before it is sealed, its tag zero. -/
def draft (what : Send) (nonce : BitVec 192) (commitment : BitVec 128) : Bytes :=
  hopBytes what.hops what.serviceHint.toNat ++
    (headBytes what nonce commitment ++ (textBytes what ++ List.replicate 16 0))

/-- What `fzn_seal_close` asks of the AEAD. -/
def closeCall (frame : Bytes) (key : Bytes32) : SealCall :=
  ⟨key, (frameHead frame).nonce, Lib.load frame 5 91,
    Lib.load frame 96 (32 + framePayloadLen frame)⟩

/-- `fzn_seal_close`. -/
def sealClose (frame : Bytes) (key : Bytes32) (aead : AeadSeal) : Except SendErr Bytes :=
  if views frame = false then .error .shape
  else match aead.sealText (closeCall frame key) with
    | none => .error .aead
    | some (text, tag) =>
      .ok (Lib.store (Lib.store frame 96 text) (128 + framePayloadLen frame) tag)

/-- `FZN_RELAY_MAX_HOPS`. -/
def relayMaxHops : ℕ := 8

/-- `FZN_RELAY_SERVICE_MAX`. -/
def relayServiceMax : ℕ := 65535

/-- `FZN_SEAL_OVERHEAD`. -/
def sealOverhead : ℕ := 144

/-- `fzn_seal_build` behind the checks of its argument: nonce and commitment, then the
frame, laid out and sealed in the caller's buffer. -/
def sealDrawn (buf : Bytes) (what : Send) (key commitmentKey : Bytes32) (hash : CommitHash)
    (drawn : Option (BitVec 192)) (aead : AeadSeal) : Except SendErr ℕ × Bytes :=
  match drawn with
  | none => (.error .noNonce, buf)
  | some nonce => match commitmentForNonce hash commitmentKey nonce with
    | .error _ => (.error .hash, buf)
    | .ok commitment => match sealClose (draft what nonce commitment) key aead with
      | .error err =>
        (.error err, Lib.store buf 0 (List.replicate (sealOverhead + what.payload.length) 0))
      | .ok frame => (.ok (sealOverhead + what.payload.length), Lib.store buf 0 frame)

/-- `fzn_seal_build` over the caller's buffer: the frame's length or a refusal, and the
buffer after it.  `drawn` is what `fzn_nonce_next` answers. -/
def sealBuild (buf : Bytes) (what : Send) (key commitmentKey : Bytes32) (hash : CommitHash)
    (drawn : Option (BitVec 192)) (aead : AeadSeal) : Except SendErr ℕ × Bytes :=
  if what.hops.toNat > relayMaxHops then (.error .malformed, buf)
  else if what.serviceHint.toNat > relayServiceMax then (.error .malformed, buf)
  else if what.payload.length > 1024 then (.error .shape, buf)
  else if what.kind.toNat > 3 then (.error .shape, buf)
  else if (what.index.toNat : Int) > what.chunks.toNat - 1 then (.error .shape, buf)
  else if buf.length < sealOverhead + what.payload.length then (.error .capacity, buf)
  else sealDrawn buf what key commitmentKey hash drawn aead

/-! ## The layout -/

/-- What the checks of `fzn_seal_build` leave of its argument. -/
structure Send.Fits (what : Send) : Prop where
  payload : what.payload.length ≤ 1024
  kind : what.kind.toNat ≤ 3
  index : (what.index.toNat : Int) ≤ what.chunks.toNat - 1

/-- A frame's head as it was sent. -/
def Send.peek (what : Send) (nonce : BitVec 192) (commitment : BitVec 128) : Peek :=
  ⟨what.sender, nonce, commitment, what.expiresAt, what.msg, what.index.toNat,
    what.chunks.toNat, what.kind.toNat⟩

section Layout

variable {what : Send} {nonce : BitVec 192} {commitment : BitVec 128} {hop rest : Bytes}

theorem length_hopBytes (hops : UInt8) (hint : ℕ) : (hopBytes hops hint).length = 5 := by
  simp [hopBytes]

theorem length_headBytes : (headBytes what nonce commitment).length = 91 := by
  simp [headBytes]

theorem length_textBytes : (textBytes what).length = 32 + what.payload.length := by
  simp [textBytes]

/-- A field of the head, behind the hop. -/
theorem getBe_behind {frame : Bytes} {off n : ℕ} (hlen : hop.length = 5) (hoff : 5 ≤ off) :
    getBe (hop ++ frame) off n = getBe frame (off - 5) n := by
  rw [getBe_append_right (by omega), hlen]

/-- **The head is read back.** -/
theorem frameHead_behind (hlen : hop.length = 5) :
    frameHead (hop ++ (headBytes what nonce commitment ++ rest)) = what.peek nonce commitment := by
  have hnonce : nonce.toNat < 256 ^ 24 := toNat_lt_be (n := 24) nonce
  have hcommitment : commitment.toNat < 256 ^ 16 := toNat_lt_be (n := 16) commitment
  have hmsg : what.msg.toNat < 256 ^ 4 := Nat.lt_of_lt_of_le what.msg.toNat_lt (by norm_num)
  have hindex : what.index.toNat < 256 ^ 2 := Nat.lt_of_lt_of_le what.index.toNat_lt (by norm_num)
  have hchunks : what.chunks.toNat < 256 ^ 2 :=
    Nat.lt_of_lt_of_le what.chunks.toNat_lt (by norm_num)
  have hkind : what.kind.toNat < 256 ^ 1 := Nat.lt_of_lt_of_le what.kind.toNat_lt (by norm_num)
  have hexpires := toNat_lt_be64 what.expiresAt
  have hread : ∀ off n, 5 ≤ off →
      getBe (hop ++ (headBytes what nonce commitment ++ rest)) off n =
        getBe (headBytes what nonce commitment ++ rest) (off - 5) n :=
    fun _ _ hoff => getBe_behind hlen hoff
  unfold frameHead Send.peek
  rw [hread 6 32 (by omega), hread 46 24 (by omega), hread 70 16 (by omega),
    hread 38 8 (by omega), hread 86 4 (by omega), hread 90 2 (by omega), hread 92 2 (by omega),
    hread 5 1 (by omega)]
  simp only [headBytes, bytes32, List.append_assoc]
  simp (disch := omega) only [getBe_skip, Nat.reduceSub, getBe_putBe_of_lt, BitVec.ofNat_toNat,
    BitVec.setWidth_eq, UInt64.ofNat_toNat, UInt32.ofNat_toNat]

theorem framePayloadLen_behind (hlen : hop.length = 5) (hfits : what.payload.length ≤ 1024) :
    framePayloadLen (hop ++ (headBytes what nonce commitment ++ rest)) = what.payload.length := by
  have hlt : what.payload.length < 256 ^ 2 := by
    norm_num
    omega
  unfold framePayloadLen
  rw [getBe_behind hlen (by omega)]
  simp only [headBytes, bytes32, List.append_assoc]
  simp (disch := omega) only [getBe_skip, Nat.reduceSub, getBe_putBe_of_lt]

/-- **A frame laid out with its argument in bounds has the shape of one.** -/
theorem views_behind (hlen : hop.length = 5) (hversion : getBe hop 0 1 = 1)
    (hreserved : getBe hop 4 1 = 0) (hfits : what.Fits)
    (hrest : rest.length = 32 + what.payload.length + 16) :
    views (hop ++ (headBytes what nonce commitment ++ rest)) = true := by
  have hsmall := hfits.payload
  have htotal : (hop ++ (headBytes what nonce commitment ++ rest)).length =
      144 + what.payload.length := by
    rw [List.length_append, List.length_append, hlen, length_headBytes, hrest]
    omega
  unfold views
  rw [htotal, frameHead_behind hlen, framePayloadLen_behind hlen hsmall,
    getBe_append_left (by omega), getBe_append_left (by omega), hversion, hreserved]
  have hkind : (what.peek nonce commitment).kind ≤ 3 := hfits.kind
  have hindex : ((what.peek nonce commitment).index : Int) ≤
      (what.peek nonce commitment).chunks - 1 := hfits.index
  have hmax : 144 + what.payload.length ≤ 4294967295 := by omega
  have hmin : 144 ≤ 144 + what.payload.length := by omega
  have hexact : 144 + what.payload.length = 128 + what.payload.length + 16 := by omega
  simp only [decide_eq_true hkind, decide_eq_true hindex, decide_eq_true hmax,
    decide_eq_true hmin, decide_eq_true hexact, decide_eq_true hsmall, decide_true,
    Bool.and_self]

end Layout

/-- A frame as it is sealed. -/
def sealedFrame (what : Send) (nonce : BitVec 192) (commitment : BitVec 128)
    (text tag : Bytes) : Bytes :=
  hopBytes what.hops what.serviceHint.toNat ++ (headBytes what nonce commitment ++ (text ++ tag))

/-- The call of the AEAD a build comes to. -/
def buildCall (what : Send) (key : Bytes32) (nonce : BitVec 192) (commitment : BitVec 128) :
    SealCall :=
  ⟨key, nonce, headBytes what nonce commitment, textBytes what⟩

section Close

variable {what : Send} {nonce : BitVec 192} {commitment : BitVec 128} {key : Bytes32}
variable {aead : AeadSeal} {text tag : Bytes}

theorem views_draft (hfits : what.Fits) : views (draft what nonce commitment) = true := by
  refine views_behind (length_hopBytes _ _) rfl ?_ hfits ?_
  · simp [hopBytes, putBe, getBe]
  · rw [List.length_append, length_textBytes, List.length_replicate]

theorem closeCall_draft (hfits : what.Fits) :
    closeCall (draft what nonce commitment) key = buildCall what key nonce commitment := by
  have hhop := length_hopBytes what.hops what.serviceHint.toNat
  have hhead := @length_headBytes what nonce commitment
  unfold closeCall draft buildCall
  rw [frameHead_behind hhop, framePayloadLen_behind hhop hfits.payload,
    Lib.load_append_self hhop hhead, ← List.append_assoc (hopBytes _ _),
    Lib.load_append_self ?_ length_textBytes]
  · rfl
  · rw [List.length_append, hhop, hhead]

/-- **The frame is sealed in place.** -/
theorem sealClose_draft (hfits : what.Fits)
    (hseal : aead.sealText (buildCall what key nonce commitment) = some (text, tag)) :
    sealClose (draft what nonce commitment) key aead =
      .ok (sealedFrame what nonce commitment text tag) := by
  have hhop := length_hopBytes what.hops what.serviceHint.toNat
  have hhead := @length_headBytes what nonce commitment
  obtain ⟨htext, htag⟩ := aead.inPlace _ _ _ hseal
  have htext : (textBytes what).length = text.length := htext.symm
  have hfront : (hopBytes what.hops what.serviceHint.toNat ++
      headBytes what nonce commitment).length = 96 := by
    rw [List.length_append, hhop, hhead]
  have hfield : framePayloadLen (draft what nonce commitment) = what.payload.length :=
    framePayloadLen_behind hhop hfits.payload
  unfold sealClose
  rw [views_draft hfits, if_neg (by decide), closeCall_draft hfits, hseal, hfield]
  show Except.ok _ = Except.ok _
  congr 1
  unfold draft sealedFrame
  rw [← List.append_assoc (hopBytes _ _), Lib.store_append_self hfront htext,
    ← List.append_assoc (hopBytes _ _ ++ _), ← List.append_nil (List.replicate 16 0),
    Lib.store_append_self ?_ ?_]
  · simp
  · rw [List.length_append, hfront, ← htext, length_textBytes]
    omega
  · rw [htag, List.length_replicate]

theorem sealClose_draft_none (hfits : what.Fits)
    (hseal : aead.sealText (buildCall what key nonce commitment) = none) :
    sealClose (draft what nonce commitment) key aead = .error .aead := by
  unfold sealClose
  rw [views_draft hfits, if_neg (by decide), closeCall_draft hfits, hseal]

end Close

/-! ## What a build comes to -/

/-- An argument `fzn_seal_build` takes into a buffer. -/
structure Send.Accepted (what : Send) (buf : Bytes) : Prop where
  hops : what.hops.toNat ≤ relayMaxHops
  hint : what.serviceHint.toNat ≤ relayServiceMax
  fits : what.Fits
  room : sealOverhead + what.payload.length ≤ buf.length

section Build

variable {buf : Bytes} {what : Send} {key commitmentKey : Bytes32} {hash : CommitHash}
variable {nonce : BitVec 192} {commitment : BitVec 128} {aead : AeadSeal} {text tag : Bytes}
variable {drawn : Option (BitVec 192)}

/-- An argument out of bounds is refused, the buffer as it was. -/
theorem sealBuild_refused (h : ¬ what.Accepted buf) :
    ∃ err, sealBuild buf what key commitmentKey hash drawn aead = (.error err, buf) := by
  unfold sealBuild
  split
  · exact ⟨_, rfl⟩
  next hops =>
    split
    · exact ⟨_, rfl⟩
    next hint =>
      split
      · exact ⟨_, rfl⟩
      next hpayload =>
        split
        · exact ⟨_, rfl⟩
        next hkind =>
          split
          · exact ⟨_, rfl⟩
          next hindex =>
            split
            · exact ⟨_, rfl⟩
            · next hroom =>
                exact absurd ⟨Nat.not_lt.1 hops, Nat.not_lt.1 hint,
                  ⟨Nat.not_lt.1 hpayload, Nat.not_lt.1 hkind, Int.not_lt.1 hindex⟩,
                  Nat.not_lt.1 hroom⟩ h

theorem sealBuild_accepted (h : what.Accepted buf) :
    sealBuild buf what key commitmentKey hash drawn aead =
      sealDrawn buf what key commitmentKey hash drawn aead := by
  unfold sealBuild
  rw [if_neg (Nat.not_lt.2 h.hops), if_neg (Nat.not_lt.2 h.hint),
    if_neg (Nat.not_lt.2 h.fits.payload), if_neg (Nat.not_lt.2 h.fits.kind),
    if_neg (Int.not_lt.2 h.fits.index), if_neg (Nat.not_lt.2 h.room)]

/-- **What is built is the frame sealed.** -/
theorem sealBuild_sealed (h : what.Accepted buf)
    (hcommitment : commitmentForNonce hash commitmentKey nonce = .ok commitment)
    (hseal : aead.sealText (buildCall what key nonce commitment) = some (text, tag)) :
    sealBuild buf what key commitmentKey hash (some nonce) aead =
      (.ok (sealOverhead + what.payload.length),
        Lib.store buf 0 (sealedFrame what nonce commitment text tag)) := by
  rw [sealBuild_accepted h]
  unfold sealDrawn
  simp only [hcommitment, sealClose_draft h.fits hseal]

/-- **What a build comes to:** refused with the buffer as it was, refused by the AEAD, or
built. -/
theorem sealBuild_cases (buf : Bytes) (what : Send) (key commitmentKey : Bytes32)
    (hash : CommitHash) (drawn : Option (BitVec 192)) (aead : AeadSeal) :
    (∃ err, sealBuild buf what key commitmentKey hash drawn aead = (.error err, buf)) ∨
      (sealBuild buf what key commitmentKey hash drawn aead).1 = .error .aead ∨
      ∃ nonce commitment text tag, drawn = some nonce ∧ what.Accepted buf ∧
        commitmentForNonce hash commitmentKey nonce = .ok commitment ∧
        aead.sealText (buildCall what key nonce commitment) = some (text, tag) ∧
        sealBuild buf what key commitmentKey hash drawn aead =
          (.ok (sealOverhead + what.payload.length),
            Lib.store buf 0 (sealedFrame what nonce commitment text tag)) := by
  by_cases h : what.Accepted buf
  · rw [sealBuild_accepted h]
    unfold sealDrawn
    cases drawn with
    | none => exact Or.inl ⟨_, rfl⟩
    | some nonce =>
      cases hcommitment : commitmentForNonce hash commitmentKey nonce with
      | error err => exact Or.inl ⟨.hash, by simp only [hcommitment]⟩
      | ok commitment =>
        cases hseal : aead.sealText (buildCall what key nonce commitment) with
        | none =>
          refine Or.inr (Or.inl ?_)
          simp only [hcommitment, sealClose_draft_none h.fits hseal]
        | some sealed =>
          obtain ⟨text, tag⟩ := sealed
          refine Or.inr (Or.inr ⟨nonce, commitment, text, tag, rfl, h, hcommitment, hseal, ?_⟩)
          simp only [hcommitment, sealClose_draft h.fits hseal]
  · exact Or.inl (sealBuild_refused h)

end Build

/-! ## What a frame opens to -/

/-- What a frame built of an argument opens to. -/
def Send.opened (what : Send) (nonce : BitVec 192) : Opened :=
  ⟨what.capability, what.payload, what.sender, nonce, what.expiresAt, what.msg,
    what.index.toNat, what.chunks.toNat, what.kind.toNat⟩

/-- `open` inverts `seal`. -/
def Inverts (aead : AeadSeal) (opener : AeadOps) : Prop :=
  ∀ call text tag, aead.sealText call = some (text, tag) →
    opener.openText call.key call.nonce call.ad text tag = some call.text

/-- `open` accepts only what `seal` produced, in one of the calls it was given. -/
def Unforged (aead : AeadSeal) (opener : AeadOps) (calls : Set SealCall) : Prop :=
  ∀ key nonce ad text tag clear, opener.openText key nonce ad text tag = some clear →
    ∃ call ∈ calls, call.key = key ∧ call.nonce = nonce ∧ call.ad = ad ∧
      aead.sealText call = some (text, tag)

/-- What a frame, its text in clear, was built of; the hop header is not known. -/
def sendOf (frame clear : Bytes) : Send where
  sender := (frameHead frame).sender
  capability := ⟨BitVec.ofNat 256 (getBe clear 0 32)⟩
  payload := clear.drop 32
  expiresAt := (frameHead frame).expiresAt
  msg := (frameHead frame).msg
  index := UInt16.ofNat (frameHead frame).index
  chunks := UInt16.ofNat (frameHead frame).chunks
  kind := UInt8.ofNat (frameHead frame).kind
  hops := 0
  serviceHint := 0

section Open

variable {what : Send} {nonce : BitVec 192} {commitment : BitVec 128} {hop text tag : Bytes}
variable {key commitmentKey : Bytes32} {hash : CommitHash} {aead : AeadSeal} {opener : AeadOps}

/-- **A sealed frame opens to what was given**, behind any hop header of the version. -/
theorem sealOpen_behind (hlen : hop.length = 5) (hversion : getBe hop 0 1 = 1)
    (hreserved : getBe hop 4 1 = 0) (hfits : what.Fits) (hinverts : Inverts aead opener)
    (hcommitment : commitmentForNonce hash commitmentKey nonce = .ok commitment)
    (hseal : aead.sealText (buildCall what key nonce commitment) = some (text, tag)) :
    sealOpen (hop ++ (headBytes what nonce commitment ++ (text ++ tag))) key commitmentKey hash
      opener = .ok (what.opened nonce) := by
  have hhead := @length_headBytes what nonce commitment
  obtain ⟨htext, htag⟩ := aead.inPlace _ _ _ hseal
  have htext : text.length = 32 + what.payload.length := htext.trans length_textBytes
  have hviews := @views_behind what nonce commitment hop (text ++ tag) hlen hversion hreserved
    hfits (by rw [List.length_append, htext, htag])
  have hpeek := @frameHead_behind what nonce commitment hop (text ++ tag) hlen
  have hlength := @framePayloadLen_behind what nonce commitment hop (text ++ tag) hlen
    hfits.payload
  have hfront : (hop ++ headBytes what nonce commitment).length = 96 := by
    rw [List.length_append, hlen, hhead]
  have hbehind : (hop ++ headBytes what nonce commitment ++ text).length =
      128 + what.payload.length := by
    rw [List.length_append, hfront, htext]
    omega
  have hloadHead : Lib.load (hop ++ (headBytes what nonce commitment ++ (text ++ tag))) 5 91 =
      headBytes what nonce commitment := Lib.load_append_self hlen hhead
  have hloadText : Lib.load (hop ++ (headBytes what nonce commitment ++ (text ++ tag))) 96
      (32 + what.payload.length) = text := by
    rw [← List.append_assoc hop]
    exact Lib.load_append_self hfront htext
  have hloadTag : Lib.load (hop ++ (headBytes what nonce commitment ++ (text ++ tag)))
      (128 + what.payload.length) 16 = tag := by
    have hload := @Lib.load_append_self _ _ _ [] _ _ hbehind htag
    rwa [List.append_nil, List.append_assoc, List.append_assoc] at hload
  have hopened : opener.openText key nonce (headBytes what nonce commitment) text tag =
      some (textBytes what) := hinverts _ _ _ hseal
  unfold sealOpen
  rw [hviews, if_neg (by decide), hpeek, hlength, hloadHead, hloadText, hloadTag]
  simp only [Send.peek, hcommitment, ne_eq, not_true_eq_false, if_false, hopened]
  have hcap : getBe (textBytes what) 0 32 = what.capability.b.toNat :=
    getBe_putBe_of_lt _ (toNat_lt_bytes _)
  have hpayload : Lib.load (textBytes what) 32 what.payload.length = what.payload := by
    rw [← List.append_nil (textBytes what), textBytes, List.append_assoc]
    exact Lib.load_append_self (Session.length_bytes32 _) rfl
  unfold openedOf
  rw [hpeek, hlength, hcap, hpayload]
  simp [Send.opened, Send.peek]

end Open

/-! ## A frame that opens was built -/

section Authentic

variable {frame clear : Bytes} {key commitmentKey : Bytes32} {hash : CommitHash}
variable {aead : AeadSeal} {opener : AeadOps} {o : Opened}

/-- **The head is what it was built of.** -/
theorem headBytes_sendOf (hlen : 96 ≤ frame.length)
    (hclear : clear.length = 32 + framePayloadLen frame) :
    headBytes (sendOf frame clear) (frameHead frame).nonce (frameHead frame).commitment =
      Lib.load frame 5 91 := by
  have hfield : ∀ off n, off + n ≤ 96 → putBe n (getBe frame off n) = Lib.load frame off n :=
    fun off n h => putBe_getBe (Nat.le_trans h hlen)
  have hkind : (UInt8.ofNat (getBe frame 5 1)).toNat = getBe frame 5 1 := by
    have hlt := getBe_lt frame 5 1
    exact Nat.mod_eq_of_lt hlt
  have hsender : (BitVec.ofNat 256 (getBe frame 6 32)).toNat = getBe frame 6 32 :=
    toNat_getBe frame 6 32
  have hexpires : (UInt64.ofNat (getBe frame 38 8)).toNat = getBe frame 38 8 := by
    have hlt := getBe_lt frame 38 8
    exact Nat.mod_eq_of_lt hlt
  have hnonce : (BitVec.ofNat 192 (getBe frame 46 24)).toNat = getBe frame 46 24 :=
    toNat_getBe frame 46 24
  have hcommitment : (BitVec.ofNat 128 (getBe frame 70 16)).toNat = getBe frame 70 16 :=
    toNat_getBe frame 70 16
  have hmsg : (UInt32.ofNat (getBe frame 86 4)).toNat = getBe frame 86 4 := by
    have hlt := getBe_lt frame 86 4
    exact Nat.mod_eq_of_lt hlt
  have hindex : (UInt16.ofNat (getBe frame 90 2)).toNat = getBe frame 90 2 := by
    have hlt := getBe_lt frame 90 2
    exact Nat.mod_eq_of_lt hlt
  have hchunks : (UInt16.ofNat (getBe frame 92 2)).toNat = getBe frame 92 2 := by
    have hlt := getBe_lt frame 92 2
    exact Nat.mod_eq_of_lt hlt
  have hlength : (clear.drop 32).length = getBe frame 94 2 := by
    rw [List.length_drop, hclear]
    exact Nat.add_sub_cancel_left 32 _
  show putBe 1 (UInt8.ofNat (getBe frame 5 1)).toNat ++
    (putBe 32 (BitVec.ofNat 256 (getBe frame 6 32)).toNat ++
      (putBe 8 (UInt64.ofNat (getBe frame 38 8)).toNat ++
        (putBe 24 (BitVec.ofNat 192 (getBe frame 46 24)).toNat ++
          (putBe 16 (BitVec.ofNat 128 (getBe frame 70 16)).toNat ++
            (putBe 4 (UInt32.ofNat (getBe frame 86 4)).toNat ++
              (putBe 2 (UInt16.ofNat (getBe frame 90 2)).toNat ++
                (putBe 2 (UInt16.ofNat (getBe frame 92 2)).toNat ++
                  putBe 2 (clear.drop 32).length))))))) = _
  rw [hkind, hsender, hexpires, hnonce, hcommitment, hmsg, hindex, hchunks, hlength,
    hfield 5 1 (by omega), hfield 6 32 (by omega), hfield 38 8 (by omega),
    hfield 46 24 (by omega), hfield 70 16 (by omega), hfield 86 4 (by omega),
    hfield 90 2 (by omega), hfield 92 2 (by omega), hfield 94 2 (by omega)]
  have hjoin := Lib.load_append_load frame
  rw [hjoin 92 2 2, hjoin 90 2 4, hjoin 86 4 6, hjoin 70 16 10, hjoin 46 24 26, hjoin 38 8 50,
    hjoin 6 32 58, hjoin 5 1 90]

/-- What opens has the shape, the commitment, and a text the AEAD accepted. -/
theorem sealOpen_ok (h : sealOpen frame key commitmentKey hash opener = .ok o) :
    views frame = true ∧
      commitmentForNonce hash commitmentKey (frameHead frame).nonce =
        .ok (frameHead frame).commitment ∧
      ∃ clear, opener.openText key (frameHead frame).nonce (Lib.load frame 5 91)
        (Lib.load frame 96 (32 + framePayloadLen frame))
        (Lib.load frame (128 + framePayloadLen frame) 16) = some clear := by
  unfold sealOpen at h
  split at h
  · cases h
  next hviews =>
    split at h
    · cases h
    next derived hderived =>
      split at h
      · cases h
      next hsame =>
        split at h
        · cases h
        · next clear hclear =>
            exact ⟨Bool.eq_true_of_not_eq_false hviews,
              Decidable.not_not.1 hsame ▸ hderived, clear, hclear⟩

/-- What the shape check says of a frame. -/
theorem views_true (h : views frame = true) :
    (frameHead frame).kind ≤ 3 ∧
      ((frameHead frame).index : Int) ≤ (frameHead frame).chunks - 1 ∧
      framePayloadLen frame ≤ 1024 ∧ frame.length = 128 + framePayloadLen frame + 16 := by
  simp only [views, Bool.and_eq_true, decide_eq_true_eq] at h
  obtain ⟨⟨⟨⟨_, hkind⟩, hindex⟩, hpayload⟩, hlen⟩ := h
  exact ⟨hkind, hindex, hpayload, hlen⟩

/-- **A frame of the shape is an argument in bounds.** -/
theorem sendOf_fits (h : views frame = true)
    (hclear : clear.length = 32 + framePayloadLen frame) : (sendOf frame clear).Fits := by
  obtain ⟨hkind, hindex, hpayload, -⟩ := views_true h
  have hsmallIndex : (UInt16.ofNat (frameHead frame).index).toNat = (frameHead frame).index := by
    have hlt := getBe_lt frame 90 2
    exact Nat.mod_eq_of_lt hlt
  have hsmallChunks : (UInt16.ofNat (frameHead frame).chunks).toNat =
      (frameHead frame).chunks := by
    have hlt := getBe_lt frame 92 2
    exact Nat.mod_eq_of_lt hlt
  have hsmallKind : (UInt8.ofNat (frameHead frame).kind).toNat = (frameHead frame).kind := by
    have hlt := getBe_lt frame 5 1
    exact Nat.mod_eq_of_lt hlt
  constructor
  · show (clear.drop 32).length ≤ 1024
    rw [List.length_drop]
    omega
  · show (UInt8.ofNat (frameHead frame).kind).toNat ≤ 3
    rwa [hsmallKind]
  · show ((UInt16.ofNat (frameHead frame).index).toNat : Int) ≤
      (UInt16.ofNat (frameHead frame).chunks).toNat - 1
    rwa [hsmallIndex, hsmallChunks]

/-- **A frame that opens was built**, its hop header apart, where `open` accepts nothing that
`seal` did not produce. -/
theorem sealOpen_built {calls : Set SealCall} (hunforged : Unforged aead opener calls)
    (h : sealOpen frame key commitmentKey hash opener = .ok o) :
    ∃ what nonce commitment buf, commitmentForNonce hash commitmentKey nonce = .ok commitment ∧
      buildCall what key nonce commitment ∈ calls ∧
      sealBuild (List.replicate frame.length 0) what key commitmentKey hash (some nonce) aead =
        (.ok frame.length, buf) ∧
      buf.length = frame.length ∧ buf.drop 5 = frame.drop 5 := by
  obtain ⟨hviews, hcommitment, clear, hopen⟩ := sealOpen_ok h
  obtain ⟨-, -, hpayload, hlen⟩ := views_true hviews
  obtain ⟨call, hmem, hkey, hnonce, had, hseal⟩ := hunforged _ _ _ _ _ _ hopen
  have htext : call.text.length = 32 + framePayloadLen frame := by
    rw [← (aead.inPlace _ _ _ hseal).1, Lib.length_load (by omega)]
  have hfits := sendOf_fits hviews htext
  have hhead := @headBytes_sendOf frame call.text (by omega) htext
  have hinterior : textBytes (sendOf frame call.text) = call.text := by
    have hcap := toNat_getBe call.text 0 32
    show putBe 32 (BitVec.ofNat 256 (getBe call.text 0 32)).toNat ++ call.text.drop 32 = _
    rw [show (BitVec.ofNat 256 (getBe call.text 0 32)).toNat = _ from hcap,
      putBe_getBe (by omega), List.drop_zero, List.take_append_drop]
  have hcall : buildCall (sendOf frame call.text) key (frameHead frame).nonce
      (frameHead frame).commitment = call := by
    unfold buildCall
    rw [hhead, hinterior, ← hkey, ← hnonce, ← had]
  have hsize : (sendOf frame call.text).payload.length = framePayloadLen frame := by
    show (call.text.drop 32).length = _
    rw [List.length_drop, htext, Nat.add_sub_cancel_left]
  have haccepted : (sendOf frame call.text).Accepted (List.replicate frame.length 0) := by
    refine ⟨Nat.zero_le _, Nat.zero_le _, hfits, ?_⟩
    rw [hsize, List.length_replicate, hlen]
    show 144 + _ ≤ _
    omega
  have hbuild := sealBuild_sealed haccepted hcommitment (hcall.symm ▸ hseal)
  have htotal : sealOverhead + (sendOf frame call.text).payload.length = frame.length := by
    rw [hsize, hlen]
    show 144 + _ = _
    omega
  rw [htotal] at hbuild
  have hbehind : (sealedFrame (sendOf frame call.text) (frameHead frame).nonce
      (frameHead frame).commitment (Lib.load frame 96 (32 + framePayloadLen frame))
      (Lib.load frame (128 + framePayloadLen frame) 16)).drop 5 = frame.drop 5 := by
    have hjoin := Lib.load_append_load frame
    have hnext : 128 + framePayloadLen frame = 96 + (32 + framePayloadLen frame) := by omega
    unfold sealedFrame
    rw [List.drop_left' (length_hopBytes _ _), hhead, hnext, hjoin 96 _ 16, hjoin 5 91]
    exact Lib.load_rest (by omega)
  have hwhole : (sealedFrame (sendOf frame call.text) (frameHead frame).nonce
      (frameHead frame).commitment (Lib.load frame 96 (32 + framePayloadLen frame))
      (Lib.load frame (128 + framePayloadLen frame) 16)).length = frame.length := by
    have hcut := congrArg List.length hbehind
    unfold sealedFrame at hcut ⊢
    rw [List.drop_left' (length_hopBytes _ _), List.length_drop] at hcut
    rw [List.length_append, hcut, length_hopBytes]
    omega
  rw [Lib.store_whole (by rw [hwhole, List.length_replicate])] at hbuild
  exact ⟨_, _, _, _, hcommitment, hcall.symm ▸ hmem, hbuild, hwhole, hbehind⟩

end Authentic

end Wire
end Fuzznet
