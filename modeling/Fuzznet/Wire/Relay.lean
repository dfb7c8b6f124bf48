/-
# Frames on their way

`wire/relay.c`: a host that forwards a frame spends one hop of the budget in the hop header,
which the tag does not cover.  What a frame claims is cut to the host's ceiling, which a
policy may set by the service the frame hints at; the first row that matches decides.

A spend changes one byte at most and never upward (`relayStep_set`).  The frame is opened
under its head, its text and its tag, so it opens along any path to what was built
(`sealed_frames`).
-/

import Fuzznet.Lib.Runs
import Fuzznet.Wire.Build

namespace Fuzznet
namespace Wire

open Lib (foldl_induction)

/-- `fzn_relay_err_t`. -/
inductive RelayErr
  | shape
  | exhausted
  | refused
  deriving DecidableEq, Repr

/-- `fzn_relay_policy_t`. -/
structure RelayPolicy where
  service : UInt16
  allowed : UInt8

/-- `hop_view`: the header is there. -/
def hopView (frame : Bytes) : Bool :=
  decide (frame.length ≤ 4294967295) && decide (5 ≤ frame.length)

/-- `situ_fzn_hop_validate`: the version, and the reserved byte. -/
def hopValidate (frame : Bytes) : Bool := frame.getD 0 0 == 1 && frame.getD 4 0 == 0

/-- The budget a frame claims. -/
def hopsLeft (frame : Bytes) : UInt8 := frame.getD 1 0

/-- `fzn_relay_budget`. -/
def relayBudget (frame : Bytes) (allowed : UInt8) : Except RelayErr UInt8 :=
  if hopView frame = false then .error .shape
  else if hopValidate frame = false then .error .shape
  else .ok (if hopsLeft frame < allowed then hopsLeft frame else allowed)

/-- `fzn_relay_service`. -/
def relayService (frame : Bytes) : Except RelayErr UInt16 :=
  if hopView frame = false then .error .shape
  else if hopValidate frame = false then .error .shape
  else .ok (UInt16.ofNat (getBe frame 2 2))

/-- The ceiling of a service: the first row for it, or the fallback. -/
def ceilingOf (policy : List RelayPolicy) (fallback : UInt8) (hinted : UInt16) : UInt8 :=
  match policy.find? fun row => row.service == hinted with
  | none => fallback
  | some row => row.allowed

/-- `policy_ceiling`. -/
def policyCeiling (frame : Bytes) (policy : List RelayPolicy) (fallback : UInt8) :
    Except RelayErr UInt8 :=
  match relayService frame with
  | .error err => .error err
  | .ok hinted =>
    if ceilingOf policy fallback hinted = 0 then .error .refused
    else .ok (ceilingOf policy fallback hinted)

/-- `fzn_relay_spend`: the answer, and the frame after it. -/
def relaySpend (frame : Bytes) (allowed : UInt8) : Except RelayErr Unit × Bytes :=
  match relayBudget frame allowed with
  | .error err => (.error err, frame)
  | .ok budget =>
    if budget = 0 then (.error .exhausted, frame)
    else if hopView frame = false then (.error .shape, frame)
    else (.ok (), frame.set 1 (budget - 1))

/-- `fzn_relay_spend_policy`. -/
def relaySpendPolicy (frame : Bytes) (policy : List RelayPolicy) (fallback : UInt8) :
    Except RelayErr Unit × Bytes :=
  match policyCeiling frame policy fallback with
  | .error err => (.error err, frame)
  | .ok ceiling => relaySpend frame ceiling

/-- What a host on the way does to a frame. -/
inductive RelayCall
  | spend (allowed : UInt8)
  | spendPolicy (policy : List RelayPolicy) (fallback : UInt8)

/-- One host's call. -/
def relayStep (frame : Bytes) : RelayCall → Except RelayErr Unit × Bytes
  | .spend allowed => relaySpend frame allowed
  | .spendPolicy policy fallback => relaySpendPolicy frame policy fallback

/-- A frame behind the hosts of a path. -/
def relayPath (frame : Bytes) (calls : List RelayCall) : Bytes :=
  calls.foldl (fun frame call => (relayStep frame call).2) frame

section Spend

variable {frame : Bytes}

theorem pred_lt {budget claimed : UInt8} (hpos : budget ≠ 0) (hle : budget ≤ claimed) :
    budget - 1 < claimed := by
  have hone : 1 ≤ budget.toNat := Nat.one_le_iff_ne_zero.2 fun hzero =>
    hpos (UInt8.toNat.inj hzero)
  have hpred : (budget - 1).toNat = budget.toNat - 1 :=
    UInt8.toNat_sub_of_le budget 1 (UInt8.le_iff_toNat_le.2 hone)
  have hclaimed := UInt8.le_iff_toNat_le.1 hle
  rw [UInt8.lt_iff_toNat_lt]
  omega

/-- **A spend** that is no refusal lowers the budget, and any other changes nothing. -/
theorem relaySpend_set (frame : Bytes) (allowed : UInt8) :
    (∃ err, relaySpend frame allowed = (.error err, frame)) ∨
      ∃ left, left < hopsLeft frame ∧ relaySpend frame allowed = (.ok (), frame.set 1 left) := by
  unfold relaySpend relayBudget
  by_cases hview : hopView frame = false
  · exact Or.inl ⟨.shape, by rw [if_pos hview]⟩
  by_cases hvalid : hopValidate frame = false
  · exact Or.inl ⟨.shape, by rw [if_neg hview, if_pos hvalid]⟩
  rw [if_neg hview, if_neg hvalid]
  by_cases hzero : (if hopsLeft frame < allowed then hopsLeft frame else allowed) = 0
  · exact Or.inl ⟨.exhausted, by simp only [if_pos hzero]⟩
  · refine Or.inr ⟨(if hopsLeft frame < allowed then hopsLeft frame else allowed) - 1, ?_,
      by simp only [if_neg hzero, if_neg hview]⟩
    refine pred_lt hzero ?_
    split
    · exact UInt8.le_refl _
    · next hless => exact UInt8.not_lt.1 hless

/-- **One host's call**, by a ceiling or a policy. -/
theorem relayStep_set (frame : Bytes) (call : RelayCall) :
    (∃ err, relayStep frame call = (.error err, frame)) ∨
      ∃ left, left < hopsLeft frame ∧ relayStep frame call = (.ok (), frame.set 1 left) := by
  cases call with
  | spend allowed => exact relaySpend_set frame allowed
  | spendPolicy policy fallback =>
    show (∃ err, relaySpendPolicy frame policy fallback = (.error err, frame)) ∨
      ∃ left, left < hopsLeft frame ∧
        relaySpendPolicy frame policy fallback = (.ok (), frame.set 1 left)
    unfold relaySpendPolicy
    cases policyCeiling frame policy fallback with
    | error err => exact Or.inl ⟨err, rfl⟩
    | ok ceiling => exact relaySpend_set frame ceiling

theorem hopsLeft_set_le (frame : Bytes) (left : UInt8) : hopsLeft (frame.set 1 left) ≤ left := by
  unfold hopsLeft
  by_cases hlen : 1 < frame.length
  · rw [List.getD_eq_getElem?_getD, List.getElem?_set_self hlen, Option.getD_some]
    exact UInt8.le_refl _
  · rw [List.getD_eq_getElem?_getD, List.getElem?_eq_none (by rw [List.length_set]; omega)]
    exact UInt8.zero_le

theorem set_hopsLeft (frame : Bytes) : frame.set 1 (hopsLeft frame) = frame := by
  by_cases hlen : 1 < frame.length
  · have hget : hopsLeft frame = frame[1] := by simp [hopsLeft, hlen]
    rw [hget, List.set_getElem_self]
  · exact List.set_eq_of_length_le (Nat.not_lt.1 hlen)

/-- **A path changes the budget alone, and never upward.** -/
theorem relayPath_set (frame : Bytes) (calls : List RelayCall) :
    ∃ left, left ≤ hopsLeft frame ∧ relayPath frame calls = frame.set 1 left := by
  refine foldl_induction (P := fun now : Bytes =>
    ∃ left, left ≤ hopsLeft frame ∧ now = frame.set 1 left) (fun pre call _ hpre => ?_)
    ⟨hopsLeft frame, UInt8.le_refl _, (set_hopsLeft frame).symm⟩
  obtain ⟨left, hle, hnow⟩ := hpre
  rw [hnow]
  obtain ⟨err, hstep⟩ | ⟨next, hlt, hstep⟩ := relayStep_set (frame.set 1 left) call
  · exact ⟨left, hle, by rw [hstep]⟩
  · refine ⟨next, ?_, by rw [hstep]; exact List.set_set ..⟩
    have hset := hopsLeft_set_le frame left
    exact UInt8.le_trans (UInt8.le_of_lt hlt) (UInt8.le_trans hset hle)

end Spend

section Path

variable {buf buf' : Bytes} {what : Send} {key commitmentKey : Bytes32} {hash : CommitHash}
variable {drawn : Option (BitVec 192)} {aead : AeadSeal} {opener : AeadOps}

/-- Another budget in a frame's hop header. -/
theorem set_sealedFrame (what : Send) (nonce : BitVec 192) (commitment : BitVec 128)
    (text tag : Bytes) (left : UInt8) :
    (sealedFrame what nonce commitment text tag).set 1 left =
      hopBytes left what.serviceHint.toNat ++
        (headBytes what nonce commitment ++ (text ++ tag)) := by
  simp [sealedFrame, hopBytes]

/-- **What was built opens at the end of any path** to what was given. -/
theorem sealOpen_relayed (hinverts : Inverts aead opener) {n : ℕ}
    (h : sealBuild buf what key commitmentKey hash drawn aead = (.ok n, buf')) :
    ∃ nonce, drawn = some nonce ∧ ∀ path,
      sealOpen (relayPath (buf'.take n) path) key commitmentKey hash opener =
        .ok (what.opened nonce) := by
  obtain ⟨err, hrefused⟩ | haead | ⟨nonce, commitment, text, tag, hdrawn, haccepted, hcommitment,
    hseal, hbuilt⟩ := sealBuild_cases buf what key commitmentKey hash drawn aead
  · rw [hrefused] at h
    cases h
  · rw [h] at haead
    cases haead
  · refine ⟨nonce, hdrawn, fun path => ?_⟩
    rw [hbuilt] at h
    obtain ⟨hn, hbuf⟩ := Prod.mk.inj h
    obtain ⟨htext, htag⟩ := aead.inPlace _ _ _ hseal
    have htext : text.length = 32 + what.payload.length := htext.trans length_textBytes
    have hlen : (sealedFrame what nonce commitment text tag).length = n := by
      rw [← Except.ok.inj hn]
      unfold sealedFrame
      rw [List.length_append, List.length_append, List.length_append, length_hopBytes,
        length_headBytes, htext, htag]
      show _ = 144 + _
      omega
    have htake : buf'.take n = sealedFrame what nonce commitment text tag := by
      rw [← hbuf, ← hlen]
      exact Lib.take_store_zero _ _
    obtain ⟨left, -, hpath⟩ := relayPath_set (sealedFrame what nonce commitment text tag) path
    rw [htake, hpath, set_sealedFrame]
    refine sealOpen_behind (length_hopBytes _ _) ?_ ?_ haccepted.fits hinverts hcommitment hseal
    · rfl
    · simp [hopBytes, putBe, getBe]

/-- A refusal that is not the AEAD's leaves the buffer as it was. -/
theorem sealBuild_untouched {err : SendErr}
    (h : sealBuild buf what key commitmentKey hash drawn aead = (.error err, buf'))
    (herr : err ≠ .aead) : buf' = buf := by
  obtain ⟨err', hrefused⟩ | haead | ⟨nonce, commitment, text, tag, -, -, -, -, hbuilt⟩ :=
    sealBuild_cases buf what key commitmentKey hash drawn aead
  · rw [hrefused] at h
    exact (Prod.mk.inj h).2.symm
  · rw [h] at haead
    exact absurd (Except.error.inj haead) herr
  · rw [hbuilt] at h
    cases h

end Path

/-- **Sealed frames round-trip and are authentic under relaying:** a frame built opens along
any path to what was given, where `open` inverts `seal`; a spend that is refused changes no
byte, and no path raises the budget a frame claims; where `open` accepts only what `seal`
produced, a frame that opens has the length of a frame `fzn_seal_build` makes with those keys,
by one of the calls `seal` was given, and is that frame behind its hop header; and a build that
is refused leaves the buffer as it was, the AEAD's refusal apart. -/
theorem sealed_frames (aead : AeadSeal) (opener : AeadOps) (hash : CommitHash)
    (key commitmentKey : Bytes32) :
    (Inverts aead opener → ∀ buf what drawn n buf',
      sealBuild buf what key commitmentKey hash drawn aead = (.ok n, buf') →
      ∃ nonce, drawn = some nonce ∧ ∀ path,
        sealOpen (relayPath (buf'.take n) path) key commitmentKey hash opener =
          .ok (what.opened nonce)) ∧
    (∀ frame call, (relayStep frame call).1 ≠ .ok () → (relayStep frame call).2 = frame) ∧
    (∀ frame path, hopsLeft (relayPath frame path) ≤ hopsLeft frame) ∧
    (∀ calls, Unforged aead opener calls → ∀ frame o,
      sealOpen frame key commitmentKey hash opener = .ok o →
      ∃ what nonce commitment buf,
        commitmentForNonce hash commitmentKey nonce = .ok commitment ∧
        buildCall what key nonce commitment ∈ calls ∧
        sealBuild (List.replicate frame.length 0) what key commitmentKey hash (some nonce) aead =
          (.ok frame.length, buf) ∧
        buf.length = frame.length ∧ buf.drop 5 = frame.drop 5) ∧
    ∀ buf what drawn err buf',
      sealBuild buf what key commitmentKey hash drawn aead = (.error err, buf') →
      err ≠ .aead → buf' = buf := by
  refine ⟨fun hinverts _ _ _ _ _ h => sealOpen_relayed hinverts h, fun frame call hrefused => ?_,
    fun frame path => ?_, fun _ hunforged _ _ h => sealOpen_built hunforged h,
    fun _ _ _ _ _ h herr => sealBuild_untouched h herr⟩
  · obtain ⟨err, hstep⟩ | ⟨left, -, hstep⟩ := relayStep_set frame call
    · rw [hstep]
    · rw [hstep] at hrefused
      exact absurd rfl hrefused
  · obtain ⟨left, hle, hpath⟩ := relayPath_set frame path
    rw [hpath]
    exact UInt8.le_trans (hopsLeft_set_le frame left) hle

/-! ## One frame -/

/-- A text one up in every byte, under one tag. -/
def shiftSeal : AeadSeal where
  sealText call := some (call.text.map (· + 1), List.replicate 16 7)
  inPlace call text tag h := by
    obtain ⟨rfl, rfl⟩ := Prod.mk.inj (Option.some.inj h)
    simp

/-- And one down again. -/
def shiftOpen : AeadOps where
  openText _ _ _ text tag :=
    if tag = List.replicate 16 7 then some (text.map (· - 1)) else none

theorem shift_inverts : Inverts shiftSeal shiftOpen := by
  intro call text tag h
  obtain ⟨rfl, rfl⟩ := Prod.mk.inj (Option.some.inj h)
  have hopen : shiftOpen.openText call.key call.nonce call.ad (call.text.map (· + 1))
      (List.replicate 16 7) = some ((call.text.map (· + 1)).map (· - 1)) := by
    simp only [shiftOpen, if_true]
  rw [hopen, List.map_map]
  simp [Function.comp_def]

theorem shift_unforged : Unforged shiftSeal shiftOpen Set.univ := by
  intro key nonce ad text tag clear h
  refine ⟨⟨key, nonce, ad, text.map (· - 1)⟩, Set.mem_univ _, rfl, rfl, rfl, ?_⟩
  have htag : tag = List.replicate 16 7 := by
    by_contra hne
    have hnone : shiftOpen.openText key nonce ad text tag = none := if_neg hne
    exact absurd (hnone.symm.trans h) (by simp)
  show some ((text.map (· - 1)).map (· + 1), _) = _
  rw [htag, List.map_map]
  simp [Function.comp_def]

/-- A frame for two hops, its payload one byte. -/
def oneByte : Send := ⟨3, ⟨4⟩, [42], 1000, 5, 0, 1, 1, 2, 9⟩

/-- A hash for the run: the last byte of the nonce. -/
def lastByteHash : CommitHash := ⟨fun x => some (BitVec.ofNat 128 (getBe x 71 1))⟩

theorem sealed_frames_one_byte : ∃ buf',
    sealBuild (List.replicate 150 0) oneByte 1 2 lastByteHash (some 6) shiftSeal =
        (.ok 145, buf') ∧
      sealOpen (relayPath (buf'.take 145) [.spend 8, .spendPolicy [⟨9, 4⟩] 0, .spend 8]) 1 2
        lastByteHash shiftOpen = .ok (oneByte.opened 6) ∧
      ∃ what nonce commitment buf,
        commitmentForNonce lastByteHash 2 nonce = .ok commitment ∧
        buildCall what 1 nonce commitment ∈ (Set.univ : Set SealCall) ∧
        sealBuild (List.replicate (buf'.take 145).length 0) what 1 2 lastByteHash (some nonce)
          shiftSeal = (.ok (buf'.take 145).length, buf) ∧
        buf.length = (buf'.take 145).length ∧ buf.drop 5 = (buf'.take 145).drop 5 := by
  have hok : (sealBuild (List.replicate 150 0) oneByte 1 2 lastByteHash (some 6) shiftSeal).1 =
      .ok 145 := by decide +kernel
  obtain ⟨hround, -, -, hauthentic, -⟩ := sealed_frames shiftSeal shiftOpen lastByteHash 1 2
  obtain ⟨built, hbuilt⟩ : ∃ built, sealBuild (List.replicate 150 0) oneByte 1 2 lastByteHash
      (some 6) shiftSeal = built := ⟨_, rfl⟩
  rw [hbuilt] at hok
  obtain ⟨answer, buf'⟩ := built
  obtain rfl : answer = .ok 145 := hok
  obtain ⟨nonce, hnonce, hopen⟩ := hround shift_inverts _ _ _ _ _ hbuilt
  obtain rfl := Option.some.inj hnonce
  exact ⟨buf', hbuilt, hopen _, hauthentic _ shift_unforged _ _ (hopen [])⟩

end Wire
end Fuzznet
