/-
# A session, from both of its ends

`session/agree.c` and `session/session.c`.  A base session hashes the two identities
with their prekeys, the lower identity first, and the secret the prekeys share; an
ephemeral session hashes them by role, with the initiator's ephemeral key and the two
secrets.  From a session's key come two chains, one for each direction.

The two ends hash the same bytes, so they get the same answer (`sessionEstablish_comm`,
`establish_roles`, `sessionChains_swap`).  The bytes hashed tell a session's view apart
from every other's (`SessionView.input_inj`), so under a hash without a collision among
them a key belongs to one view.
-/

import Fuzznet.Session.Derive
import Mathlib.Data.Sym.Sym2

namespace Fuzznet
namespace Session

open Wire

/-- `fzn_agree_err_t`, the codes of the calls modelled here. -/
inductive AgreeErr
  | ops
  | degenerate
  | absent
  deriving DecidableEq, Repr

/-- `fzn_agree_ops_t`: a secret's public key, and what a secret shares with a public key.
Either may refuse. -/
structure AgreeOps where
  publicOf : Bytes32 → Option Bytes32
  agree : Bytes32 → Bytes32 → Option Bytes32

/-- `fzn_agree_secret_t`. -/
structure AgreeSecret where
  secret : Bytes32
  publicKey : Bytes32
  generation : UInt64
  live : Bool
  deriving DecidableEq, Repr

/-- `fzn_agree_secret_public`. -/
def agreeSecretPublic (sk : AgreeSecret) : Option Bytes32 :=
  if sk.live then some sk.publicKey else none

/-- `fzn_agree_shared`. -/
def agreeShared (ops : AgreeOps) (sk : AgreeSecret) (peerPublic : Bytes32) :
    Except AgreeErr Bytes32 :=
  if sk.live = false then .error .absent
  else match ops.agree sk.secret peerPublic with
    | none => .error .degenerate
    | some shared => .ok shared

/-- `fzn_session_err_t`. -/
inductive SessionErr
  | malformed
  | self
  | agree
  | hash
  deriving DecidableEq, Repr

/-- `FZN_SESSION_LABEL`, `"fuzznet-sess-v1\0"`. -/
def sessionLabel : Bytes :=
  [0x66, 0x75, 0x7a, 0x7a, 0x6e, 0x65, 0x74, 0x2d, 0x73, 0x65, 0x73, 0x73, 0x2d, 0x76, 0x31, 0]

/-- `FZN_SESSION_DIR_LABEL`, `"fuzznet-dir-v1\0\0"`. -/
def sessionDirLabel : Bytes :=
  [0x66, 0x75, 0x7a, 0x7a, 0x6e, 0x65, 0x74, 0x2d, 0x64, 0x69, 0x72, 0x2d, 0x76, 0x31, 0, 0]

/-- A host's half of a session: its identity and its prekey's public key. -/
@[ext]
structure Half where
  identity : Bytes32
  prekey : Bytes32
  deriving DecidableEq, Repr

/-- The bytes of a half, the identity in front. -/
def Half.bytes (h : Half) : Bytes := bytes32 h.identity ++ bytes32 h.prekey

/-- The version 1 layout. -/
def transcriptV1 (first second : Half) (shared : Bytes32) : Bytes :=
  sessionLabel ++ [1] ++ first.bytes ++ second.bytes ++ bytes32 shared

/-- `fzn_session_transcript`: the lower identity stands first. -/
def sessionTranscript (self peer : Half) (shared : Bytes32) : Except SessionErr Bytes :=
  if self.identity = peer.identity then .error .self
  else if self.identity < peer.identity then .ok (transcriptV1 self peer shared)
  else .ok (transcriptV1 peer self shared)

/-- The version 2 layout. -/
def transcriptV2Bytes (initiator responder : Half)
    (ephemeral prekeyShared ephemeralShared : Bytes32) : Bytes :=
  sessionLabel ++ [2] ++ initiator.bytes ++ responder.bytes ++ bytes32 ephemeral ++
    bytes32 prekeyShared ++ bytes32 ephemeralShared

/-- `transcript_v2`: by role, the initiator first. -/
def transcriptV2 (initiator responder : Half)
    (ephemeral prekeyShared ephemeralShared : Bytes32) : Except SessionErr Bytes :=
  if initiator.identity = responder.identity then .error .self
  else .ok (transcriptV2Bytes initiator responder ephemeral prekeyShared ephemeralShared)

/-- The end of every establishment, `finish_v2`: a transcript, if there is one, hashed to
the two keys. -/
def sessionFinish (hash : KdfOps) (transcript : Except SessionErr Bytes) :
    Except SessionErr RootKeys :=
  match transcript with
  | .error e => .error e
  | .ok t => match deriveRoot hash t with
    | .error _ => .error .hash
    | .ok keys => .ok keys

/-- `fzn_session_establish`. -/
def sessionEstablish (agree : AgreeOps) (hash : KdfOps) (selfPrekey : AgreeSecret)
    (selfIdentity peerIdentity peerPrekey : Bytes32) : Except SessionErr RootKeys :=
  match agreeSecretPublic selfPrekey with
  | none => .error .agree
  | some selfPk => match agreeShared agree selfPrekey peerPrekey with
    | .error _ => .error .agree
    | .ok shared => sessionFinish hash
        (sessionTranscript ⟨selfIdentity, selfPk⟩ ⟨peerIdentity, peerPrekey⟩ shared)

/-- `fzn_session_establish_initiator`. -/
def sessionEstablishInitiator (agree : AgreeOps) (hash : KdfOps)
    (selfPrekey ephemeral : AgreeSecret) (selfIdentity peerIdentity peerPrekey : Bytes32) :
    Except SessionErr RootKeys :=
  match agreeSecretPublic selfPrekey, agreeSecretPublic ephemeral with
  | some selfPk, some ephPk => match agreeShared agree selfPrekey peerPrekey with
    | .error _ => .error .agree
    | .ok dhPrekey => match agreeShared agree ephemeral peerPrekey with
      | .error _ => .error .agree
      | .ok dhEphemeral => sessionFinish hash (transcriptV2 ⟨selfIdentity, selfPk⟩
          ⟨peerIdentity, peerPrekey⟩ ephPk dhPrekey dhEphemeral)
  | _, _ => .error .agree

/-- `fzn_session_establish_responder`.  The peer is the initiator. -/
def sessionEstablishResponder (agree : AgreeOps) (hash : KdfOps) (selfPrekey : AgreeSecret)
    (selfIdentity peerIdentity peerPrekey peerEphemeral : Bytes32) :
    Except SessionErr RootKeys :=
  match agreeSecretPublic selfPrekey with
  | none => .error .agree
  | some selfPk => match agreeShared agree selfPrekey peerPrekey with
    | .error _ => .error .agree
    | .ok dhPrekey => match agreeShared agree selfPrekey peerEphemeral with
      | .error _ => .error .agree
      | .ok dhEphemeral => sessionFinish hash (transcriptV2 ⟨peerIdentity, peerPrekey⟩
          ⟨selfIdentity, selfPk⟩ peerEphemeral dhPrekey dhEphemeral)

/-- What `chain_for` hashes. -/
def chainInput (key src dst : Bytes32) : Bytes :=
  sessionDirLabel ++ bytes32 src ++ bytes32 dst ++ bytes32 key

/-- `chain_for`. -/
def chainFor (hash : KdfOps) (key src dst : Bytes32) : Except SessionErr Bytes32 :=
  match hash.narrow (chainInput key src dst) with
  | none => .error .hash
  | some out => .ok out

/-- `fzn_session_chains`: the send chain and the receive chain. -/
def sessionChains (hash : KdfOps) (key selfIdentity peerIdentity : Bytes32) :
    Except SessionErr (Bytes32 × Bytes32) :=
  if selfIdentity = peerIdentity then .error .self
  else match chainFor hash key selfIdentity peerIdentity with
    | .error e => .error e
    | .ok send => match chainFor hash key peerIdentity selfIdentity with
      | .error e => .error e
      | .ok recv => .ok (send, recv)

/-! ## The two ends agree -/

/-- The agreement is commutative on key pairs. -/
def Commutes (ops : AgreeOps) : Prop :=
  ∀ a b publicA publicB, ops.publicOf a = some publicA → ops.publicOf b = some publicB →
    ops.agree a publicB = ops.agree b publicA

/-- A key pair in use. -/
structure Installed (ops : AgreeOps) (sk : AgreeSecret) : Prop where
  live : sk.live
  pair : ops.publicOf sk.secret = some sk.publicKey

section Agreement

variable {ops : AgreeOps} {skA skB : AgreeSecret}

theorem Installed.public (h : Installed ops skA) :
    agreeSecretPublic skA = some skA.publicKey := by
  rw [agreeSecretPublic, if_pos h.live]

/-- What two key pairs share does not depend on the end. -/
theorem agreeShared_comm (hcomm : Commutes ops) (hA : Installed ops skA)
    (hB : Installed ops skB) :
    agreeShared ops skA skB.publicKey = agreeShared ops skB skA.publicKey := by
  rw [agreeShared, agreeShared, hA.live, hB.live, hcomm _ _ _ _ hA.pair hB.pair]

/-- The transcript does not depend on the end. -/
theorem sessionTranscript_comm (self peer : Half) (shared : Bytes32) :
    sessionTranscript self peer shared = sessionTranscript peer self shared := by
  unfold sessionTranscript
  rcases BitVec.lt_trichotomy self.identity peer.identity with hlt | heq | hlt
  · rw [if_neg (BitVec.ne_of_lt hlt), if_pos hlt, if_neg (BitVec.ne_of_lt hlt).symm,
      if_neg (BitVec.not_lt.2 (BitVec.le_of_lt hlt))]
  · rw [if_pos heq, if_pos heq.symm]
  · rw [if_neg (BitVec.ne_of_lt hlt).symm, if_neg (BitVec.not_lt.2 (BitVec.le_of_lt hlt)),
      if_neg (BitVec.ne_of_lt hlt), if_pos hlt]

/-- **A base session answers the same at its two ends.** -/
theorem sessionEstablish_comm (hash : KdfOps) (hcomm : Commutes ops) (hA : Installed ops skA)
    (hB : Installed ops skB) (idA idB : Bytes32) :
    sessionEstablish ops hash skA idA idB skB.publicKey =
      sessionEstablish ops hash skB idB idA skA.publicKey := by
  rw [sessionEstablish, sessionEstablish, hA.public, hB.public, agreeShared_comm hcomm hA hB]
  cases agreeShared ops skB skA.publicKey with
  | error e => rfl
  | ok shared =>
    show sessionFinish hash _ = sessionFinish hash _
    rw [sessionTranscript_comm]

/-- **An ephemeral session answers the same at its two ends.** -/
theorem establish_roles {eph : AgreeSecret} (hash : KdfOps) (hcomm : Commutes ops)
    (hA : Installed ops skA) (hB : Installed ops skB) (hE : Installed ops eph)
    (idA idB : Bytes32) :
    sessionEstablishInitiator ops hash skA eph idA idB skB.publicKey =
      sessionEstablishResponder ops hash skB idB idA skA.publicKey eph.publicKey := by
  rw [sessionEstablishInitiator, sessionEstablishResponder, hA.public, hB.public, hE.public]
  simp only [agreeShared_comm hcomm hA hB, agreeShared_comm hcomm hE hB]

/-- **What one end sends on, the other receives on.** -/
theorem sessionChains_swap (hash : KdfOps) (key idA idB : Bytes32) :
    sessionChains hash key idB idA = (sessionChains hash key idA idB).map Prod.swap := by
  unfold sessionChains chainFor
  rcases eq_or_ne idA idB with rfl | hne
  · rw [if_pos rfl]
    rfl
  · rw [if_neg hne, if_neg hne.symm]
    cases hash.narrow (chainInput key idA idB) <;> cases hash.narrow (chainInput key idB idA) <;>
      rfl

end Agreement

/-! ## A key belongs to one view -/

/-- What a session is between: the two halves and the secret of a base session, or the
roles, the ephemeral key and the two secrets of an ephemeral one. -/
inductive SessionView
  | base (self peer : Half) (shared : Bytes32)
  | ephemeral (initiator responder : Half) (ephemeral prekeyShared ephemeralShared : Bytes32)

/-- Two views of one session: a base session's halves in either order. -/
def SessionView.Same : SessionView → SessionView → Prop
  | .base self peer shared, .base self' peer' shared' =>
    s(self, peer) = s(self', peer') ∧ shared = shared'
  | .ephemeral i r e p q, .ephemeral i' r' e' p' q' =>
    i = i' ∧ r = r' ∧ e = e' ∧ p = p' ∧ q = q'
  | _, _ => False

/-- The transcript of a view. -/
def SessionView.transcript : SessionView → Except SessionErr Bytes
  | .base self peer shared => sessionTranscript self peer shared
  | .ephemeral i r e p q => transcriptV2 i r e p q

/-- The establishments that succeed: each entry point, with the view its host has. -/
inductive SessionOf (agree : AgreeOps) (hash : KdfOps) : SessionView → RootKeys → Prop
  | establish {sk selfIdentity peerIdentity peerPrekey shared keys} :
      agreeShared agree sk peerPrekey = .ok shared →
      sessionEstablish agree hash sk selfIdentity peerIdentity peerPrekey = .ok keys →
      SessionOf agree hash
        (.base ⟨selfIdentity, sk.publicKey⟩ ⟨peerIdentity, peerPrekey⟩ shared) keys
  | initiator {sk eph selfIdentity peerIdentity peerPrekey dhPrekey dhEphemeral keys} :
      agreeShared agree sk peerPrekey = .ok dhPrekey →
      agreeShared agree eph peerPrekey = .ok dhEphemeral →
      sessionEstablishInitiator agree hash sk eph selfIdentity peerIdentity peerPrekey =
        .ok keys →
      SessionOf agree hash (.ephemeral ⟨selfIdentity, sk.publicKey⟩ ⟨peerIdentity, peerPrekey⟩
        eph.publicKey dhPrekey dhEphemeral) keys
  | responder {sk selfIdentity peerIdentity peerPrekey peerEphemeral dhPrekey dhEphemeral keys} :
      agreeShared agree sk peerPrekey = .ok dhPrekey →
      agreeShared agree sk peerEphemeral = .ok dhEphemeral →
      sessionEstablishResponder agree hash sk selfIdentity peerIdentity peerPrekey
        peerEphemeral = .ok keys →
      SessionOf agree hash (.ephemeral ⟨peerIdentity, peerPrekey⟩ ⟨selfIdentity, sk.publicKey⟩
        peerEphemeral dhPrekey dhEphemeral) keys

/-- `T` holds what is hashed for a view. -/
def SessionView.HashedIn (v : SessionView) (T : Set Bytes) : Prop :=
  ∀ t, v.transcript = .ok t → rootLabel ++ t ∈ T

/-- On `T` the hash is injective, in the half that becomes the key. -/
def KeyInjOn (hash : KdfOps) (T : Set Bytes) : Prop :=
  ∀ x ∈ T, ∀ y ∈ T, ∀ d e, hash.wide x = some d → hash.wide y = some e →
    firstHalf d = firstHalf e → x = y

/-- On `T` the hash is injective, at 32 bytes. -/
def NarrowInjOn (hash : KdfOps) (T : Set Bytes) : Prop :=
  ∀ x ∈ T, ∀ y ∈ T, ∀ d, hash.narrow x = some d → hash.narrow y = some d → x = y

theorem Half.bytes_append_inj {h h' : Half} {x y : Bytes} :
    h.bytes ++ x = h'.bytes ++ y ↔ h = h' ∧ x = y := by
  simp only [Half.bytes, List.append_assoc, bytes32_append_inj, Half.ext_iff, and_assoc]

theorem length_transcriptV1 (first second : Half) (shared : Bytes32) :
    (transcriptV1 first second shared).length = 177 := by
  simp [transcriptV1, Half.bytes, sessionLabel]

theorem length_transcriptV2Bytes (i r : Half) (e p q : Bytes32) :
    (transcriptV2Bytes i r e p q).length = 241 := by
  simp [transcriptV2Bytes, Half.bytes, sessionLabel]

theorem transcriptV1_inj {a b a' b' : Half} {s s' : Bytes32}
    (h : transcriptV1 a b s = transcriptV1 a' b' s') : a = a' ∧ b = b' ∧ s = s' := by
  simpa only [transcriptV1, List.append_assoc, List.append_cancel_left_eq,
    Half.bytes_append_inj, bytes32_inj] using h

theorem transcriptV2Bytes_inj {i r i' r' : Half} {e p q e' p' q' : Bytes32}
    (h : transcriptV2Bytes i r e p q = transcriptV2Bytes i' r' e' p' q') :
    i = i' ∧ r = r' ∧ e = e' ∧ p = p' ∧ q = q' := by
  simpa only [transcriptV2Bytes, List.append_assoc, List.append_cancel_left_eq,
    Half.bytes_append_inj, bytes32_append_inj, bytes32_inj] using h

/-- A base transcript is the version 1 layout of the two halves, in one order. -/
theorem sessionTranscript_ok {self peer : Half} {shared : Bytes32} {t : Bytes}
    (h : sessionTranscript self peer shared = .ok t) :
    ∃ a b, s(a, b) = s(self, peer) ∧ t = transcriptV1 a b shared := by
  unfold sessionTranscript at h
  split at h
  · exact absurd h (by simp)
  split at h
  · exact ⟨self, peer, rfl, (Except.ok.inj h).symm⟩
  · exact ⟨peer, self, Sym2.eq_swap, (Except.ok.inj h).symm⟩

theorem transcriptV2_ok {i r : Half} {e p q : Bytes32} {t : Bytes}
    (h : transcriptV2 i r e p q = .ok t) : t = transcriptV2Bytes i r e p q := by
  unfold transcriptV2 at h
  split at h
  · exact absurd h (by simp)
  · exact (Except.ok.inj h).symm

/-- **One transcript, one view.** -/
theorem SessionView.transcript_inj {v v' : SessionView} {t : Bytes}
    (h : v.transcript = .ok t) (h' : v'.transcript = .ok t) : v.Same v' := by
  cases v with
  | base self peer shared =>
    obtain ⟨a, b, hab, rfl⟩ := sessionTranscript_ok h
    cases v' with
    | base self' peer' shared' =>
      obtain ⟨a', b', hab', heq⟩ := sessionTranscript_ok h'
      obtain ⟨rfl, rfl, rfl⟩ := transcriptV1_inj heq
      exact ⟨hab.symm.trans hab', rfl⟩
    | ephemeral i r e p q =>
      have := congrArg List.length (transcriptV2_ok h')
      rw [length_transcriptV1, length_transcriptV2Bytes] at this
      exact absurd this (by decide)
  | ephemeral i r e p q =>
    obtain rfl := transcriptV2_ok h
    cases v' with
    | base self' peer' shared' =>
      obtain ⟨a', b', -, heq⟩ := sessionTranscript_ok h'
      have := congrArg List.length heq
      rw [length_transcriptV1, length_transcriptV2Bytes] at this
      exact absurd this (by decide)
    | ephemeral i' r' e' p' q' => exact transcriptV2Bytes_inj (transcriptV2_ok h')

theorem sessionFinish_ok {hash : KdfOps} {transcript : Except SessionErr Bytes} {k : RootKeys}
    (h : sessionFinish hash transcript = .ok k) :
    ∃ t d, transcript = .ok t ∧ hash.wide (rootLabel ++ t) = some d ∧
      k = ⟨firstHalf d, lastHalf d⟩ := by
  unfold sessionFinish at h
  split at h
  · exact absurd h (by simp)
  next t =>
  split at h
  · exact absurd h (by simp)
  next keys hk =>
  obtain ⟨d, hd, rfl⟩ := deriveRoot_ok hk
  exact ⟨t, d, rfl, hd, (Except.ok.inj h).symm⟩

/-- **A session's keys are one hash over its view's transcript**, whichever entry point
gave them. -/
theorem SessionOf.finish {agree : AgreeOps} {hash : KdfOps} {v : SessionView} {k : RootKeys}
    (h : SessionOf agree hash v k) : sessionFinish hash v.transcript = .ok k := by
  have hpublic : ∀ (sk : AgreeSecret) p, agreeSecretPublic sk = some p → p = sk.publicKey := by
    intro sk p hp
    unfold agreeSecretPublic at hp
    split at hp
    · exact (Option.some.inj hp).symm
    · exact absurd hp (by simp)
  cases h with
  | establish hs h =>
    unfold sessionEstablish at h
    split at h
    · exact absurd h (by simp)
    next p hp =>
    rw [hs] at h
    exact hpublic _ p hp ▸ h
  | initiator h₁ h₂ h =>
    unfold sessionEstablishInitiator at h
    split at h
    case h_2 => exact absurd h (by simp)
    next p e hp he =>
    rw [h₁, h₂] at h
    obtain rfl := hpublic _ p hp
    obtain rfl := hpublic _ e he
    exact h
  | responder h₁ h₂ h =>
    unfold sessionEstablishResponder at h
    split at h
    · exact absurd h (by simp)
    next p hp =>
    rw [h₁, h₂] at h
    exact hpublic _ p hp ▸ h

/-- **Equal keys, one session.** -/
theorem SessionOf.same {agree agree' : AgreeOps} {hash : KdfOps} {T : Set Bytes}
    {v v' : SessionView} {k k' : RootKeys} (hT : KeyInjOn hash T)
    (h : SessionOf agree hash v k) (h' : SessionOf agree' hash v' k') (hv : v.HashedIn T)
    (hv' : v'.HashedIn T) (hkey : k.key = k'.key) : v.Same v' := by
  obtain ⟨t, d, ht, hd, rfl⟩ := sessionFinish_ok h.finish
  obtain ⟨t', d', ht', hd', rfl⟩ := sessionFinish_ok h'.finish
  obtain rfl : t = t' :=
    List.append_cancel_left (hT _ (hv t ht) _ (hv' t' ht') d d' hd hd' hkey)
  exact v.transcript_inj ht ht'

/-- **The two directions are two chains.** -/
theorem sessionChains_ne {hash : KdfOps} {T : Set Bytes} (hT : NarrowInjOn hash T)
    {key idA idB send recv : Bytes32} (hA : chainInput key idA idB ∈ T)
    (hB : chainInput key idB idA ∈ T) (h : sessionChains hash key idA idB = .ok (send, recv)) :
    send ≠ recv := by
  unfold sessionChains chainFor at h
  rintro rfl
  split at h
  · exact absurd h (by simp)
  next hne =>
  cases hs : hash.narrow (chainInput key idA idB) with
  | none => simp [hs] at h
  | some s =>
    cases hr : hash.narrow (chainInput key idB idA) with
    | none => simp [hs, hr] at h
    | some r =>
      simp only [hs, hr, Except.ok.injEq, Prod.mk.injEq] at h
      obtain ⟨rfl, rfl⟩ := h
      have heq := hT _ hA _ hB _ hs hr
      simp only [chainInput, List.append_assoc, List.append_cancel_left_eq,
        bytes32_append_inj] at heq
      exact hne heq.1

/-- **A session, from both of its ends.**  Under a commutative agreement the two ends of
a base session, and the initiator and the responder of an ephemeral one, get one answer,
an error or the two keys; and the chains from a key are each other's, swapped.  Under a
hash without a collision among what is hashed, sessions with one key are one session, so
no base session is an ephemeral one; and the send chain is not the receive chain. -/
theorem session_both_ends (agree : AgreeOps) (hash : KdfOps) (hcomm : Commutes agree) :
    (∀ skA skB idA idB, Installed agree skA → Installed agree skB →
      sessionEstablish agree hash skA idA idB skB.publicKey =
        sessionEstablish agree hash skB idB idA skA.publicKey) ∧
    (∀ skA skB eph idA idB, Installed agree skA → Installed agree skB → Installed agree eph →
      sessionEstablishInitiator agree hash skA eph idA idB skB.publicKey =
        sessionEstablishResponder agree hash skB idB idA skA.publicKey eph.publicKey) ∧
    (∀ key idA idB, sessionChains hash key idB idA =
      (sessionChains hash key idA idB).map Prod.swap) ∧
    (∀ T, KeyInjOn hash T → ∀ v v' k k', SessionOf agree hash v k → SessionOf agree hash v' k' →
      v.HashedIn T → v'.HashedIn T → k.key = k'.key → v.Same v') ∧
    (∀ T, NarrowInjOn hash T → ∀ key idA idB send recv, chainInput key idA idB ∈ T →
      chainInput key idB idA ∈ T → sessionChains hash key idA idB = .ok (send, recv) →
        send ≠ recv) :=
  ⟨fun _ _ idA idB hA hB => sessionEstablish_comm hash hcomm hA hB idA idB,
    fun _ _ _ idA idB hA hB hE => establish_roles hash hcomm hA hB hE idA idB,
    sessionChains_swap hash,
    fun _ hT _ _ _ _ h h' hv hv' hkey => h.same hT h' hv hv' hkey,
    fun _ hT _ _ _ _ _ hA hB h => sessionChains_ne hT hA hB h⟩

/-- An agreement and a hash for the runs on fixed hosts: a secret is its own public key,
two share their sum, and a key is the length of what is hashed. -/
def sumAgree : AgreeOps := ⟨some, fun a b => some (a + b)⟩

/-- See `sumAgree`; a chain is the identity it runs from. -/
def lengthKdf : KdfOps :=
  ⟨fun bs => some (BitVec.ofNat 512 (bs.length * 2 ^ 256)),
    fun bs => some (BitVec.ofNat 256 (getBe bs 16 32))⟩

/-- Two hosts with the prekeys three and four, and the ephemeral key five. -/
theorem session_both_ends_two :
    sessionEstablish sumAgree lengthKdf ⟨3, 3, 0, true⟩ 1 2 4 =
      sessionEstablish sumAgree lengthKdf ⟨4, 4, 0, true⟩ 2 1 3 ∧
    sessionEstablishInitiator sumAgree lengthKdf ⟨3, 3, 0, true⟩ ⟨5, 5, 0, true⟩ 1 2 4 =
      sessionEstablishResponder sumAgree lengthKdf ⟨4, 4, 0, true⟩ 2 1 3 5 ∧
    (SessionView.base ⟨1, 3⟩ ⟨2, 4⟩ 7).Same (.base ⟨2, 4⟩ ⟨1, 3⟩ 7) ∧
    (1 : Bytes32) ≠ 2 := by
  have hcomm : Commutes sumAgree := by
    intro a b _ _ hA hB
    obtain rfl := Option.some.inj hA
    obtain rfl := Option.some.inj hB
    exact congrArg some (BitVec.add_comm _ _)
  have hinst : ∀ x g, Installed sumAgree ⟨x, x, g, true⟩ := fun _ _ => ⟨rfl, rfl⟩
  obtain ⟨hbase, hroles, -, hsame, hchains⟩ := session_both_ends sumAgree lengthKdf hcomm
  refine ⟨hbase ⟨3, 3, 0, true⟩ ⟨4, 4, 0, true⟩ 1 2 (hinst 3 0) (hinst 4 0),
    hroles ⟨3, 3, 0, true⟩ ⟨4, 4, 0, true⟩ ⟨5, 5, 0, true⟩ 1 2 (hinst 3 0) (hinst 4 0)
      (hinst 5 0), ?_, ?_⟩
  · have hA : SessionOf sumAgree lengthKdf (.base ⟨1, 3⟩ ⟨2, 4⟩ 7) ⟨193, 0⟩ :=
      @SessionOf.establish _ _ ⟨3, 3, 0, true⟩ 1 2 4 7 _ rfl (by decide +kernel)
    have hB : SessionOf sumAgree lengthKdf (.base ⟨2, 4⟩ ⟨1, 3⟩ 7) ⟨193, 0⟩ :=
      @SessionOf.establish _ _ ⟨4, 4, 0, true⟩ 2 1 3 7 _ rfl (by decide +kernel)
    have hlen : firstHalf (BitVec.ofNat 512 (193 * 2 ^ 256)) ≠
        firstHalf (BitVec.ofNat 512 (257 * 2 ^ 256)) := by
      decide +kernel
    have h193 : lengthKdf.wide (rootLabel ++ transcriptV1 ⟨1, 3⟩ ⟨2, 4⟩ 7) =
        some (BitVec.ofNat 512 (193 * 2 ^ 256)) := by
      decide +kernel
    have h257 : lengthKdf.wide (rootLabel ++ transcriptV2Bytes ⟨1, 3⟩ ⟨2, 4⟩ 5 7 9) =
        some (BitVec.ofNat 512 (257 * 2 ^ 256)) := by
      decide +kernel
    have htA : (SessionView.base ⟨1, 3⟩ ⟨2, 4⟩ 7).transcript =
        .ok (transcriptV1 ⟨1, 3⟩ ⟨2, 4⟩ 7) := by
      decide +kernel
    have htB : (SessionView.base ⟨2, 4⟩ ⟨1, 3⟩ 7).transcript =
        .ok (transcriptV1 ⟨1, 3⟩ ⟨2, 4⟩ 7) := by
      decide +kernel
    -- what the two hash, and what an ephemeral session of the two would
    refine hsame {rootLabel ++ transcriptV1 ⟨1, 3⟩ ⟨2, 4⟩ 7,
      rootLabel ++ transcriptV2Bytes ⟨1, 3⟩ ⟨2, 4⟩ 5 7 9} ?_ _ _ _ _ hA hB ?_ ?_ rfl
    · rintro x (rfl | rfl) y (rfl | rfl) d e hd he heq
      · rfl
      · obtain rfl := Option.some.inj (hd.symm.trans h193)
        obtain rfl := Option.some.inj (he.symm.trans h257)
        exact absurd heq hlen
      · obtain rfl := Option.some.inj (hd.symm.trans h257)
        obtain rfl := Option.some.inj (he.symm.trans h193)
        exact absurd heq hlen.symm
      · rfl
    · exact fun t ht => Or.inl (congrArg _ (Except.ok.inj (htA.symm.trans ht)).symm)
    · exact fun t ht => Or.inl (congrArg _ (Except.ok.inj (htB.symm.trans ht)).symm)
  · refine hchains {chainInput 9 1 2, chainInput 9 2 1} ?_ 9 1 2 _ _ (Or.inl rfl) (Or.inr rfl) rfl
    rintro x (rfl | rfl) y (rfl | rfl) d hx hy
    · rfl
    · exact absurd (hx.trans hy.symm) (by decide)
    · exact absurd (hx.trans hy.symm) (by decide)
    · rfl

end Session
end Fuzznet
