/-
# Delegating: the chain one hop longer

`chain/chain.c`: `hop_sign`, `fzn_chain_delegate`.  A hop is laid out, opened again from
the bytes and signed; a delegated hop is granted by the grantee of a chain
that verifies now, and asks for no more time than that chain has left (`clampExpiry`).

Pass one over a chain is pass one over its front, then over the rest (`passOne_append`), and
the marks of the front are those it has by itself (`coversChain_append`).  So a front of an
accepted chain is accepted, for no shorter time, and one hop more is accepted for no longer
(`chainVerify_attenuates`).  The completeness gate alone looks at a grantor no shorter
chain had: delegating does not ask it, and a chain delegated past it is incomplete
(`delegated_past_gate`).
-/

import Fuzznet.Chain.Basic
import Fuzznet.Chain.Verify

namespace Fuzznet
namespace Chain

open Wire

/-- `fzn_hop_encode`: a hop not signed yet. -/
def hopEncode (grantor grantee : Key) (capability : CapId) (issuedAt expiresAt : UInt64)
    (delegable : Bool) : Bytes :=
  Hop.bytes ⟨grantor, grantee, capability, issuedAt, expiresAt, delegable, 0⟩

/-- `hop_sign`: the hop's bytes, opened again for what the signature covers. -/
def hopSign (grantor grantee : Key) (capability : CapId) (issuedAt expiresAt : UInt64)
    (delegable : Bool) (sign : SignOps) : Except ChainErr Bytes :=
  if expiresAt ≠ noExpiry ∧ expiresAt ≤ issuedAt then .error .chainInvalid
  else
    let out := hopEncode grantor grantee capability issuedAt expiresAt delegable
    match hopOpen out with
    | .error err => .error err
    | .ok hop => match sign.sign hop.signedBytes with
        | none => .error .chainInvalid
        | some signature => .ok (out.take 115 ++ putBe 64 signature.toNat)

/-- No more time than is left: none left to ask for where `existing` is unlimited. -/
def clampExpiry (existing expiresAt : UInt64) : UInt64 :=
  if existing ≠ noExpiry ∧ (expiresAt = noExpiry ∨ existing < expiresAt) then existing
  else expiresAt

/-- `fzn_chain_delegate`: no completeness gate, a full chain refused before anything else. -/
def chainDelegate (hops : List Hop) (root : Key) (capability : CapId) (now : UInt64)
    (grantee : Key) (expiresAt : UInt64) (delegable : Bool) (sign : SignOps)
    (s : Option RevocationStore) : Except ChainErr Bytes :=
  if chainMaxHops ≤ hops.length then .error .malformed
  else match chainVerify hops root capability now sign s none with
    | .error err => .error err
    | .ok existing =>
      if hops.getLast?.any Hop.delegable = false then .error .notDelegable
      else hopSign existing.grantee grantee capability now
        (clampExpiry existing.expiresAt expiresAt) delegable sign

/-! ## A hop signed -/

section Signed

variable {grantor grantee : Key} {capability : CapId} {issuedAt expiresAt : UInt64}
  {delegable : Bool} {sign : SignOps} {out : Bytes}

/-- The body does not hold the signature. -/
theorem signedBytes_unsigned (signature : Sig) :
    Hop.signedBytes ⟨grantor, grantee, capability, issuedAt, expiresAt, delegable, 0⟩ =
      Hop.signedBytes ⟨grantor, grantee, capability, issuedAt, expiresAt, delegable, signature⟩ :=
  rfl

/-- What the signer is asked for is the body, and the signature goes behind it. -/
theorem hopSign_of_signed {signature : Sig} (hvalid : ¬(expiresAt ≠ noExpiry ∧ expiresAt ≤ issuedAt))
    (hsigned : sign.sign (Hop.signedBytes
      ⟨grantor, grantee, capability, issuedAt, expiresAt, delegable, signature⟩) =
        some signature) :
    hopSign grantor grantee capability issuedAt expiresAt delegable sign =
      .ok (Hop.bytes ⟨grantor, grantee, capability, issuedAt, expiresAt, delegable, signature⟩) := by
  have hbody : (Hop.bytes ⟨grantor, grantee, capability, issuedAt, expiresAt, delegable,
      0⟩).take 115 = Hop.signedBytes ⟨grantor, grantee, capability, issuedAt, expiresAt,
        delegable, signature⟩ := by
    rw [Hop.bytes, List.take_append_of_le_length (by simp [Hop.signedBytes])]
    exact List.take_of_length_le (by simp [Hop.signedBytes])
  rw [hopSign, if_neg hvalid]
  dsimp only
  rw [hopEncode, hopOpen_bytes]
  dsimp only
  rw [signedBytes_unsigned signature, hsigned]
  dsimp only
  rw [hbody, ← Hop.bytes]

/-- What is signed opens to the hop asked for, and its signature is the signer's. -/
theorem hopSign_ok
    (h : hopSign grantor grantee capability issuedAt expiresAt delegable sign = .ok out) :
    ¬(expiresAt ≠ noExpiry ∧ expiresAt ≤ issuedAt) ∧ ∃ signature,
      hopOpen out =
        .ok ⟨grantor, grantee, capability, issuedAt, expiresAt, delegable, signature⟩ ∧
      sign.sign (Hop.signedBytes
        ⟨grantor, grantee, capability, issuedAt, expiresAt, delegable, signature⟩) =
        some signature := by
  by_cases hvalid : expiresAt ≠ noExpiry ∧ expiresAt ≤ issuedAt
  · rw [hopSign, if_pos hvalid] at h
    cases h
  refine ⟨hvalid, ?_⟩
  cases hsigned : sign.sign (Hop.signedBytes
      ⟨grantor, grantee, capability, issuedAt, expiresAt, delegable, 0⟩) with
  | none =>
    rw [hopSign, if_neg hvalid] at h
    dsimp only at h
    rw [hopEncode, hopOpen_bytes] at h
    dsimp only at h
    rw [hsigned] at h
    cases h
  | some signature =>
    rw [signedBytes_unsigned signature] at hsigned
    rw [hopSign_of_signed hvalid hsigned] at h
    obtain rfl := Except.ok.inj h
    exact ⟨signature, hopOpen_bytes _, hsigned⟩

end Signed

/-- The delegated hop, and what it was delegated from. -/
theorem chainDelegate_ok {hops : List Hop} {root : Key} {capability : CapId} {now : UInt64}
    {grantee : Key} {expiresAt : UInt64} {delegable : Bool} {sign : SignOps}
    {s : Option RevocationStore} {out : Bytes}
    (h : chainDelegate hops root capability now grantee expiresAt delegable sign s = .ok out) :
    hops.length < chainMaxHops ∧ ∃ existing,
      chainVerify hops root capability now sign s none = .ok existing ∧
      hops.getLast?.any Hop.delegable = true ∧
      hopSign existing.grantee grantee capability now
        (clampExpiry existing.expiresAt expiresAt) delegable sign = .ok out := by
  unfold chainDelegate at h
  by_cases hfull : chainMaxHops ≤ hops.length
  · rw [if_pos hfull] at h
    cases h
  rw [if_neg hfull] at h
  split at h
  next => cases h
  next existing hverify =>
    by_cases hlast : hops.getLast?.any Hop.delegable = false
    · rw [if_pos hlast] at h
      cases h
    · rw [if_neg hlast] at h
      exact ⟨by omega, existing, hverify, Bool.eq_true_of_not_eq_false hlast, h⟩

/-! ## The front of a chain -/

section Front

variable {capability : CapId} {now t : UInt64} {revoked : ℕ → Bool} {hops more : List Hop}
  {soonest out : UInt64} {i : ℕ} {prev : Option Hop}

/-- The hop before the one behind `hops`. -/
def lastOr (prev : Option Hop) (hops : List Hop) : Option Hop := hops.getLast?.or prev

theorem lastOr_cons (prev : Option Hop) (hop : Hop) (hops : List Hop) :
    lastOr prev (hop :: hops) = lastOr (some hop) hops := by
  cases hlast : hops.getLast? <;> simp [lastOr, List.getLast?_cons, hlast]

/-- Pass one over a chain in two parts. -/
theorem passOne_append : passOne capability now revoked i prev soonest (hops ++ more) = .ok out ↔
    ∃ mid, passOne capability now revoked i prev soonest hops = .ok mid ∧
      passOne capability now revoked (i + hops.length) (lastOr prev hops) mid more = .ok out := by
  induction hops generalizing i prev soonest with
  | nil => simp [passOne, lastOr]
  | cons hop hops ih =>
    rw [List.cons_append, passOne, passOne, lastOr_cons, List.length_cons]
    have harrange : i + (hops.length + 1) = i + 1 + hops.length := by omega
    rw [harrange]
    split_ifs
    · simp
    · simp
    · simp
    · simp
    · simp
    · exact ih

/-- Pass one reads the marks of its own hops. -/
theorem passOne_congr {revoked' : ℕ → Bool}
    (h : ∀ j < hops.length, revoked (i + j) = revoked' (i + j)) :
    passOne capability now revoked i prev soonest hops =
      passOne capability now revoked' i prev soonest hops := by
  induction hops generalizing i prev soonest with
  | nil => rfl
  | cons hop hops ih =>
    have hhere : revoked i = revoked' i := h 0 (by simp)
    rw [passOne, passOne, hhere]
    rw [ih fun j hj => ?_]
    have hnext := h (j + 1) (by simpa using hj)
    rwa [show i + (j + 1) = i + 1 + j by omega] at hnext

/-- Pass one accepts only what has not expired. -/
theorem passOne_lt (h : passOne capability now revoked i prev soonest hops = .ok out)
    (hsoonest : soonest = noExpiry ∨ now < soonest) : out = noExpiry ∨ now < out := by
  induction hops generalizing i prev soonest with
  | nil =>
    obtain rfl : soonest = out := Except.ok.inj h
    exact hsoonest
  | cons hop hops ih =>
    rw [passOne] at h
    split_ifs at h with hcap hlink hissued hexpired hrevoked
    refine ih h ?_
    unfold soonestOf
    split_ifs with hsooner
    · exact .inr (UInt64.not_le.1 fun hle => hexpired ⟨hsooner.1, hle⟩)
    · exact hsoonest

/-- The question about a hop is about the links up to it. -/
theorem hopQuestion_append (adminOk : ℕ → Bool) (hi : i < hops.length) :
    hopQuestion ((hops ++ more).map Hop.link) capability adminOk i =
      hopQuestion (hops.map Hop.link) capability adminOk i := by
  have htake : ((hops ++ more).map Hop.link).take (i + 1) = (hops.map Hop.link).take (i + 1) := by
    rw [List.map_append, List.take_append_of_le_length (by rwa [List.length_map])]
  have hget : ((hops ++ more).map Hop.link)[i]? = (hops.map Hop.link)[i]? := by
    rw [List.map_append, List.getElem?_append_left (by rwa [List.length_map])]
  rw [hopQuestion, hopQuestion, htake, hget]

theorem firstGrantor_append (hi : i < hops.length) :
    firstGrantor ((hops ++ more).map Hop.link) = firstGrantor (hops.map Hop.link) := by
  cases hops with
  | nil => cases hi
  | cons hop hops => rfl

theorem judgeLinks_append (s : RevocationStore) (adminOk : ℕ → Bool) (hi : i < hops.length) :
    judgeLinks s ((hops ++ more).map Hop.link) capability adminOk i =
      judgeLinks s (hops.map Hop.link) capability adminOk i := by
  have hin : i < ((hops ++ more).map Hop.link).length := by
    rw [List.length_map, List.length_append]
    omega
  have hin' : i < (hops.map Hop.link).length := by rwa [List.length_map]
  rw [judgeLinks, judgeLinks, hopQuestion_append adminOk hi, firstGrantor_append hi,
    decide_eq_true hin, decide_eq_true hin']

/-- **The marks of a chain's front** are those it has by itself. -/
theorem coversChain_append {s : Option RevocationStore} (hlen : (hops ++ more).length ≤ chainMaxHops)
    (hi : i < hops.length) :
    coversChain s (hops ++ more) capability i = coversChain s hops capability i := by
  cases s with
  | none => rw [coversChain, coversChain, Option.any_none, Option.any_none]
  | some s =>
    have hcount : ¬(((hops ++ more).map Hop.link).length = 0 ∨
        chainMaxHops < ((hops ++ more).map Hop.link).length) := by
      rw [List.length_map]
      rw [List.length_append] at hlen ⊢
      omega
    have hcount' : ¬((hops.map Hop.link).length = 0 ∨
        chainMaxHops < (hops.map Hop.link).length) := by
      rw [List.length_map]
      rw [List.length_append] at hlen
      omega
    rw [coversChain, coversChain, Option.any_some, Option.any_some, coversLinks, coversLinks,
      if_neg hcount, if_neg hcount', judgeLinks_append s _ hi]

/-- Pass one over a chain's front asks the front's own marks. -/
theorem passOne_front {s : Option RevocationStore} (hlen : (hops ++ more).length ≤ chainMaxHops) :
    passOne capability now (coversChain s (hops ++ more) capability) 0 prev soonest hops =
      passOne capability now (coversChain s hops capability) 0 prev soonest hops :=
  passOne_congr fun j hj => by
    rw [Nat.zero_add]
    exact coversChain_append hlen hj

end Front

/-! ## One hop more -/

section Attenuation

variable {hops : List Hop} {root : Key} {capability : CapId} {now : UInt64} {sign : SignOps}
  {s : Option RevocationStore} {m : Option ManifestState} {v : VerifiedChain}

/-- An expiry no later than another, where `FZN_NO_EXPIRY` is the latest. -/
def NoLater (expiry expiry' : UInt64) : Prop :=
  expiry' = noExpiry ∨ expiry ≠ noExpiry ∧ expiry ≤ expiry'

/-- **The times a chain is accepted at**, with the same verdict. -/
theorem chainVerify_ok_at_iff (h : chainVerify hops root capability now sign s m = .ok v)
    (t : UInt64) :
    chainVerify hops root capability t sign s m = .ok v ↔
      v.expiresAt = noExpiry ∨ t < v.expiresAt := by
  refine ⟨fun ht => ?_, chainVerify_ok_at h⟩
  obtain ⟨-, -, hpass, -⟩ := chainVerify_ok.1 ht
  exact passOne_lt hpass (.inl rfl)

/-- **The front of an accepted chain is accepted**, for no shorter time. -/
theorem chainVerify_front {more : List Hop} (hne : hops ≠ [])
    (h : chainVerify (hops ++ more) root capability now sign s m = .ok v) :
    ∃ v', chainVerify hops root capability now sign s m = .ok v' ∧
      NoLater v.expiresAt v'.expiresAt := by
  obtain ⟨hlen, hpin, hpass, hgate, hsigned, -⟩ := chainVerify_ok.1 h
  obtain ⟨mid, hfront, hrest⟩ := passOne_append.1 hpass
  rw [passOne_front hlen] at hfront
  refine ⟨verdictOf root capability hops mid, chainVerify_ok.2 ⟨?_, ?_, hfront, ?_, ?_, rfl⟩, ?_⟩
  · rw [List.length_append] at hlen
    omega
  · rwa [List.head?_append_of_ne_nil _ hne] at hpin
  · cases m with
    | none => rfl
    | some m =>
      rw [gateShut, Option.any_some, List.any_append, Bool.or_eq_false_iff] at hgate
      exact hgate.1
  · rw [hopsSigned, List.all_append, Bool.and_eq_true] at hsigned
    exact hsigned.1
  · exact or_iff_not_imp_left.2 (passOne_le hrest)

/-- **A chain one delegated hop longer** is accepted for no longer, unless the store revokes
the new grantee or this host lacks a revocation of the chain's own grantee. -/
theorem chainVerify_delegated {signer : SignOps} {grantee : Key} {expiresAt : UInt64}
    {delegable : Bool} {out : Bytes} {hop : Hop}
    (h : chainVerify hops root capability now sign s m = .ok v)
    (hdelegate : chainDelegate hops root capability now grantee expiresAt delegable signer s =
      .ok out)
    (hopen : hopOpen out = .ok hop)
    (hsigner : ∀ body signature, signer.sign body = some signature →
      sign.verify v.grantee body signature = true)
    (hfree : coversChain s (hops ++ [hop]) capability hops.length = false)
    (hcomplete : m.all (fun m => pending m v.grantee == 0) = true) :
    ∃ v', chainVerify (hops ++ [hop]) root capability now sign s m = .ok v' ∧
      NoLater v'.expiresAt v.expiresAt := by
  obtain ⟨-, ⟨hop0, hhead, hpin⟩, hpass, hgate, hsigned, hv⟩ := chainVerify_ok.1 h
  obtain ⟨hlen, existing, hverify, hdelegable, hsign⟩ := chainDelegate_ok hdelegate
  -- the chain is asked again without the gate, which is the same verdict
  obtain rfl : existing = v := by
    obtain ⟨-, -, hpass', -, -, hv'⟩ := chainVerify_ok.1 hverify
    rw [hpass] at hpass'
    rw [hv', hv, Except.ok.inj hpass']
  obtain ⟨hvalid, signature, hopens, hsignature⟩ := hopSign_ok hsign
  obtain rfl := Except.ok.inj (hopen.symm.trans hopens)
  obtain ⟨last, hlast⟩ : ∃ last, hops.getLast? = some last := by
    cases hlast : hops.getLast? with
    | none => rw [hlast] at hdelegable; cases hdelegable
    | some last => exact ⟨last, rfl⟩
  rw [hlast] at hdelegable
  have hgrantee : existing.grantee = last.grantee := by rw [hv, verdictOf, hlast]; rfl
  have hlength : ∀ hop : Hop, (hops ++ [hop]).length ≤ chainMaxHops := fun hop => by
    rw [List.length_append, List.length_singleton]
    omega
  refine ⟨verdictOf root capability _
      (soonestOf existing.expiresAt (clampExpiry existing.expiresAt expiresAt)),
    chainVerify_ok.2 ⟨hlength _, ⟨hop0, ?_, hpin⟩, passOne_append.2
    ⟨existing.expiresAt, ?_, ?_⟩, ?_, ?_, rfl⟩, ?_⟩
  · rw [List.head?_append, hhead]
    rfl
  · rw [passOne_front (hlength _)]
    exact hpass
  · rw [passOne, lastOr, hlast, Nat.zero_add, if_neg (by simp), if_neg ?_, if_neg hvalid,
      if_neg hvalid, if_neg (by rw [hfree]; simp)]
    · rfl
    · simpa [hgrantee] using hdelegable
  · cases m with
    | none => rfl
    | some m =>
      rw [gateShut, Option.any_some] at hgate
      rw [Option.all_some, beq_iff_eq] at hcomplete
      rw [gateShut, Option.any_some, List.any_append, hgate]
      simp [hcomplete]
  · rw [hopsSigned] at hsigned
    rw [hopsSigned, List.all_append, hsigned]
    simpa using hsigner _ _ hsignature
  · exact or_iff_not_imp_left.2 (soonestOf_le _ _).1

/-- **Verification attenuates, and is a threshold in time.**  A chain accepted now with a
verdict is accepted with it at exactly the times before it expires; each front of it that has
a hop is accepted now, for no shorter time; and behind it a hop `fzn_chain_delegate` makes is
accepted now, for no longer, if the signer signs for the chain's grantee, the store does not
revoke the new grantee and nothing is pending about the chain's grantee. -/
theorem chainVerify_attenuates (h : chainVerify hops root capability now sign s m = .ok v) :
    (∀ t, chainVerify hops root capability t sign s m = .ok v ↔
      v.expiresAt = noExpiry ∨ t < v.expiresAt) ∧
    (∀ front, front <+: hops → front ≠ [] →
      ∃ v', chainVerify front root capability now sign s m = .ok v' ∧
        NoLater v.expiresAt v'.expiresAt) ∧
    ∀ (signer : SignOps) (grantee : Key) (expiresAt : UInt64) (delegable : Bool) (out : Bytes)
      (hop : Hop),
      chainDelegate hops root capability now grantee expiresAt delegable signer s = .ok out →
      hopOpen out = .ok hop →
      (∀ body signature, signer.sign body = some signature →
        sign.verify v.grantee body signature = true) →
      coversChain s (hops ++ [hop]) capability hops.length = false →
      m.all (fun m => pending m v.grantee == 0) = true →
      ∃ v', chainVerify (hops ++ [hop]) root capability now sign s m = .ok v' ∧
        NoLater v'.expiresAt v.expiresAt := by
  refine ⟨chainVerify_ok_at_iff h, ?_, fun signer grantee expiresAt delegable out hop =>
    chainVerify_delegated h⟩
  rintro front ⟨more, rfl⟩ hne
  exact chainVerify_front hne h

end Attenuation

/-! ## A hop delegated past the gate -/

/-- A root's grant to key 2 until time 100. -/
def grantToTwo : Hop := ⟨1, 2, ⟨7⟩, 0, 100, true, 0⟩

/-- A host that follows issuers 1 and 2, and lacks a revocation by `issuer`. -/
def lacking (issuer : Key) : ManifestState :=
  ⟨[⟨1, 0, false⟩, ⟨2, 0, false⟩], 4, [⟨issuer, ⟨7⟩, 9⟩], 4⟩

/-- The hop key 2 delegates to key 3 from it, which asked for no expiry. -/
def grantToThree : Hop := ⟨2, 3, ⟨7⟩, 10, 100, true, 0⟩

theorem delegatedToThree :
    chainDelegate [grantToTwo] 1 ⟨7⟩ 10 3 noExpiry true acceptingSign none =
      .ok grantToThree.bytes := by
  have hverify : chainVerify [grantToTwo] 1 ⟨7⟩ 10 acceptingSign none none =
      .ok ⟨1, 2, ⟨7⟩, 1, 100⟩ := by decide
  have hclamp : clampExpiry 100 noExpiry = 100 := by decide
  rw [chainDelegate, if_neg (by decide), hverify]
  dsimp only
  rw [if_neg (by decide), hclamp, hopSign_of_signed (by decide) rfl]
  rfl

/-- Delegating does not ask the completeness gate, and a chain delegated past it is refused:
the grant to key 2 is accepted where a revocation by key 2 is lacking, key 2 delegates it on,
and the longer chain is incomplete. -/
theorem delegated_past_gate :
    chainVerify [grantToTwo] 1 ⟨7⟩ 10 acceptingSign none (some (lacking 2)) =
      .ok ⟨1, 2, ⟨7⟩, 1, 100⟩ ∧
    chainDelegate [grantToTwo] 1 ⟨7⟩ 10 3 noExpiry true acceptingSign none =
      .ok grantToThree.bytes ∧
    hopOpen grantToThree.bytes = .ok grantToThree ∧
    (∀ body signature, acceptingSign.sign body = some signature →
      acceptingSign.verify 2 body signature = true) ∧
    coversChain none [grantToTwo, grantToThree] ⟨7⟩ 1 = false ∧
    chainVerify [grantToTwo, grantToThree] 1 ⟨7⟩ 10 acceptingSign none (some (lacking 2)) =
      .error .incomplete :=
  ⟨by decide, delegatedToThree, hopOpen_bytes _, fun _ _ _ => rfl, rfl, by decide⟩

/-- The hop delegated to key 3, with nothing lacking. -/
theorem chainVerify_attenuates_three :
    chainVerify [grantToTwo] 1 ⟨7⟩ 10 acceptingSign none (some (lacking 5)) =
      .ok ⟨1, 2, ⟨7⟩, 1, 100⟩ ∧
    ∃ v', chainVerify ([grantToTwo] ++ [grantToThree]) 1 ⟨7⟩ 10 acceptingSign none
        (some (lacking 5)) = .ok v' ∧ NoLater v'.expiresAt 100 := by
  have hverify : chainVerify [grantToTwo] 1 ⟨7⟩ 10 acceptingSign none (some (lacking 5)) =
      .ok ⟨1, 2, ⟨7⟩, 1, 100⟩ := by decide
  exact ⟨hverify, (chainVerify_attenuates hverify).2.2 acceptingSign 3 noExpiry true
    grantToThree.bytes grantToThree delegatedToThree (hopOpen_bytes _)
    (fun _ _ _ => rfl) rfl (by decide)⟩

end Chain
end Fuzznet
