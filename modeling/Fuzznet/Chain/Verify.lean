/-
# Verifying a chain, and remembering the verdict

`chain/chain.c`, `fzn_chain_verify`: the root pin, the revocation marks of the
whole chain, pass one over everything that costs nothing, the completeness gate,
and the signatures last.

A verdict reads the clock at one place, the expiry of each hop.
`chainVerify_ok_at` says what that comes to: a chain accepted at one time is
accepted at every time before the verdict's own expiry.
-/

import Fuzznet.Chain.Judge
import Fuzznet.Chain.Manifest

namespace Fuzznet
namespace Chain

open Wire

/-- The root a chain is pinned to: with a root set, any root the set names whose
first hop counts; without one, the root the caller names. -/
def rootPinned (s : Option RevocationStore) (root : Key) (hop : Hop) : Bool :=
  match s.bind RevocationStore.roots with
  | some r => r.member hop.grantor && (r.hash.hash hop.bytes).any (r.counts hop.grantor)
  | none => decide (hop.grantor = root)

/-- The weakest link, which an unlimited hop does not win. -/
def soonestOf (soonest expiresAt : UInt64) : UInt64 :=
  if expiresAt ≠ noExpiry ∧ (soonest = noExpiry ∨ expiresAt < soonest) then expiresAt else soonest

/-- Pass one from hop `i` on, behind `prev`: the soonest expiry, or why not. -/
def passOne (capability : CapId) (now : UInt64) (revoked : ℕ → Bool) :
    ℕ → Option Hop → UInt64 → List Hop → Except ChainErr UInt64
  | _, _, soonest, [] => .ok soonest
  | i, prev, soonest, hop :: hops =>
    if hop.capability ≠ capability then .error .chainInvalid
    else if prev.any (fun p => hop.grantor != p.grantee || !p.delegable) then .error .chainInvalid
    else if hop.expiresAt ≠ noExpiry ∧ hop.expiresAt ≤ hop.issuedAt then .error .chainInvalid
    else if hop.expiresAt ≠ noExpiry ∧ hop.expiresAt ≤ now then .error .expired
    else if revoked i then .error .revoked
    else passOne capability now revoked (i + 1) (some hop) (soonestOf soonest hop.expiresAt) hops

/-- The completeness gate: this host lacks a revocation of one of the chain's
grantors. -/
def gateShut (m : Option ManifestState) (hops : List Hop) : Bool :=
  m.any fun m => hops.any fun hop => 0 < pending m hop.grantor

/-- Pass two: every hop signed by its grantor. -/
def hopsSigned (sign : SignOps) (hops : List Hop) : Bool :=
  hops.all fun hop => sign.verify hop.grantor hop.signedBytes hop.signature

/-- What a chain whose last hop is `last` turned out to say. -/
def verdictOf (root : Key) (capability : CapId) (hops : List Hop) (soonest : UInt64) :
    VerifiedChain where
  root := root
  grantee := (hops.getLast?.map Hop.grantee).getD 0
  capability := capability
  hopCount := hops.length
  expiresAt := soonest

/-- `fzn_chain_verify`. -/
def chainVerify (hops : List Hop) (root : Key) (capability : CapId) (now : UInt64)
    (sign : SignOps) (s : Option RevocationStore) (m : Option ManifestState) :
    Except ChainErr VerifiedChain :=
  if chainMaxHops < hops.length then .error .malformed
  else match hops.head? with
    | none => .error .malformed
    | some hop0 =>
      if rootPinned s root hop0 = false then .error .wrongRoot
      else match passOne capability now (coversChain s hops capability) 0 none noExpiry hops with
        | .error err => .error err
        | .ok soonest =>
          if gateShut m hops then .error .incomplete
          else if hopsSigned sign hops = false then .error .chainInvalid
          else .ok (verdictOf root capability hops soonest)

/-! ### Accepted until it expires -/

/-- A later expiry is not reached before the weakest link is. -/
theorem soonestOf_le (soonest expiresAt : UInt64) :
    (soonest ≠ noExpiry → soonestOf soonest expiresAt ≠ noExpiry ∧
      soonestOf soonest expiresAt ≤ soonest) ∧
    (expiresAt ≠ noExpiry → soonestOf soonest expiresAt ≠ noExpiry ∧
      soonestOf soonest expiresAt ≤ expiresAt) := by
  unfold soonestOf
  split_ifs with h
  · exact ⟨fun hs => ⟨h.1, UInt64.le_of_lt (h.2.resolve_left hs)⟩,
      fun _ => ⟨h.1, UInt64.le_refl _⟩⟩
  · refine ⟨fun hs => ⟨hs, UInt64.le_refl _⟩, fun he => ⟨fun hs => h ⟨he, Or.inl hs⟩, ?_⟩⟩
    exact UInt64.not_lt.1 fun hlt => h ⟨he, Or.inr hlt⟩

variable {capability : CapId} {hops : List Hop} {now : UInt64}

theorem passOne_le {revoked : ℕ → Bool} {i : ℕ} {prev : Option Hop} {soonest out : UInt64}
    (h : passOne capability now revoked i prev soonest hops = .ok out) (hne : soonest ≠ noExpiry) :
    out ≠ noExpiry ∧ out ≤ soonest := by
  induction hops generalizing i prev soonest with
  | nil =>
    obtain rfl : soonest = out := Except.ok.inj h
    exact ⟨hne, UInt64.le_refl _⟩
  | cons hop hops ih =>
    rw [passOne] at h
    split_ifs at h
    obtain ⟨hne', hle⟩ := (soonestOf_le soonest hop.expiresAt).1 hne
    obtain ⟨hout, hlt⟩ := ih h hne'
    exact ⟨hout, UInt64.le_trans hlt hle⟩

/-- Pass one reads the clock at the expiries alone. -/
theorem passOne_ok_at {now t : UInt64} {revoked : ℕ → Bool} {i : ℕ} {prev : Option Hop}
    {soonest out : UInt64} (h : passOne capability now revoked i prev soonest hops = .ok out)
    (ht : out = noExpiry ∨ t < out) :
    passOne capability t revoked i prev soonest hops = .ok out := by
  induction hops generalizing i prev soonest with
  | nil => exact h
  | cons hop hops ih =>
    rw [passOne] at h ⊢
    split_ifs at h with hcap hlink hissued hexpired hrevoked
    have hlive : ¬(hop.expiresAt ≠ noExpiry ∧ hop.expiresAt ≤ t) := by
      rintro ⟨hne, hle⟩
      obtain ⟨hne', hsoon⟩ := (soonestOf_le soonest hop.expiresAt).2 hne
      obtain ⟨hout, hlt⟩ := passOne_le h hne'
      rcases ht with ht | ht
      · exact hout ht
      · exact UInt64.not_le.2 ht (UInt64.le_trans (UInt64.le_trans hlt hsoon) hle)
    rw [if_neg hcap, if_neg hlink, if_neg hissued, if_neg hlive, if_neg hrevoked]
    exact ih h

/-- What an accepted chain passed: the pin, pass one, the gate and the signatures. -/
theorem chainVerify_ok {root : Key} {sign : SignOps} {s : Option RevocationStore}
    {m : Option ManifestState} {v : VerifiedChain} :
    chainVerify hops root capability now sign s m = .ok v ↔
      hops.length ≤ chainMaxHops ∧ (∃ hop0, hops.head? = some hop0 ∧ rootPinned s root hop0 = true) ∧
      passOne capability now (coversChain s hops capability) 0 none noExpiry hops = .ok v.expiresAt ∧
      gateShut m hops = false ∧ hopsSigned sign hops = true ∧
      v = verdictOf root capability hops v.expiresAt := by
  unfold chainVerify
  constructor
  · intro h
    by_cases hlen : chainMaxHops < hops.length
    · simp [hlen] at h
    cases hhead : hops.head? with
    | none => simp [hlen, hhead] at h
    | some hop0 =>
      cases hpin : rootPinned s root hop0 with
      | false => simp [hlen, hhead, hpin] at h
      | true =>
        cases hpass : passOne capability now (coversChain s hops capability) 0 none noExpiry
            hops with
        | error err => simp [hlen, hhead, hpin, hpass] at h
        | ok soonest =>
          cases hgate : gateShut m hops with
          | true => simp [hlen, hhead, hpin, hpass, hgate] at h
          | false =>
            cases hsigned : hopsSigned sign hops with
            | false => simp [hlen, hhead, hpin, hpass, hgate, hsigned] at h
            | true =>
              simp only [hlen, hhead, hpin, hpass, hgate, hsigned] at h
              obtain rfl := Except.ok.inj h
              exact ⟨by omega, ⟨hop0, rfl, hpin⟩, rfl, rfl, rfl, rfl⟩
  · rintro ⟨hlen, ⟨hop0, hhead, hpin⟩, hpass, hgate, hsigned, hv⟩
    rw [if_neg (by omega), hhead]
    simp only [hpin, hpass, hgate, hsigned]
    rw [hv]
    rfl

/-- **An accepted chain is accepted at every time before its verdict expires.** -/
theorem chainVerify_ok_at {root : Key} {now t : UInt64} {sign : SignOps}
    {s : Option RevocationStore} {m : Option ManifestState} {v : VerifiedChain}
    (h : chainVerify hops root capability now sign s m = .ok v)
    (ht : v.expiresAt = noExpiry ∨ t < v.expiresAt) :
    chainVerify hops root capability t sign s m = .ok v := by
  obtain ⟨hlen, hpin, hpass, hrest⟩ := chainVerify_ok.1 h
  exact chainVerify_ok.2 ⟨hlen, hpin, passOne_ok_at hpass ht, hrest⟩

/-! ## A chain verdict, remembered

`chain/memo.h`, `chain/memo.c`: `fzn_chain_memo_init`, `fzn_chain_memo_allows`,
`fzn_chain_memo_record`.

A slot holds the triple of an accepted chain, the soonest expiry of its hops and the
generation of the revocation store it was accepted under.  A slot hits while the
generation is the same and the expiry not reached; a slot never written holds
generation `0`, which is no store's. -/

/-- `fzn_chain_memo_entry_t`. -/
structure MemoEntry where
  root : Key
  grantee : Key
  capability : CapId
  generation : ℕ
  expiresAt : UInt64
  deriving DecidableEq, Repr

/-- `fzn_chain_memo_t`; the capacity is the number of slots. -/
structure Memo where
  entries : List MemoEntry
  cursor : ℕ
  hits : ℕ
  misses : ℕ
  deriving DecidableEq, Repr

/-- `fzn_chain_memo_init`: every slot zeroed. -/
def memoInit (capacity : ℕ) : Memo where
  entries := List.replicate capacity ⟨0, 0, ⟨0⟩, 0, 0⟩
  cursor := 0
  hits := 0
  misses := 0

/-- `same_triple`. -/
def MemoEntry.sameTriple (e : MemoEntry) (root grantee : Key) (capability : CapId) : Bool :=
  decide (e.root = root ∧ e.grantee = grantee ∧ e.capability = capability)

/-- What a slot is asked: written, under this generation, of this triple, and not
expired. -/
def MemoEntry.allows (e : MemoEntry) (root grantee : Key) (capability : CapId) (generation : ℕ)
    (now : UInt64) : Bool :=
  decide (e.generation ≠ 0 ∧ e.generation = generation) && e.sameTriple root grantee capability &&
    !decide (e.expiresAt ≠ noExpiry ∧ e.expiresAt ≤ now)

/-- The slot `fzn_chain_memo_allows` stops at; a generation of `0` asks none. -/
def memoHit (memo : Memo) (root grantee : Key) (capability : CapId) (generation : ℕ)
    (now : UInt64) : Option ℕ :=
  if generation = 0 then none
  else memo.entries.findIdx? fun e => e.allows root grantee capability generation now

/-- `fzn_chain_memo_allows`, with the counters. -/
def memoAllows (memo : Memo) (root grantee : Key) (capability : CapId) (generation : ℕ)
    (now : UInt64) : Bool × Memo :=
  match memoHit memo root grantee capability generation now with
  | some _ => (true, { memo with hits := memo.hits + 1 })
  | none => (false, { memo with misses := memo.misses + 1 })

/-- The slot `fzn_chain_memo_record` prefers: the triple's own, else the first that is
empty or stale. -/
def memoSlot (memo : Memo) (verdict : VerifiedChain) (generation : ℕ) : Option ℕ :=
  (memo.entries.findIdx? fun e =>
      e.sameTriple verdict.root verdict.grantee verdict.capability).or
    (memo.entries.findIdx? fun e => decide (e.generation = 0 ∨ e.generation ≠ generation))

/-- A verdict as a slot holds it. -/
def VerifiedChain.memoEntry (verdict : VerifiedChain) (generation : ℕ) : MemoEntry where
  root := verdict.root
  grantee := verdict.grantee
  capability := verdict.capability
  generation := generation
  expiresAt := verdict.expiresAt

/-- The slot a verdict goes to: the preferred one, else the one at the cursor. -/
def memoTarget (memo : Memo) (verdict : VerifiedChain) (generation : ℕ) : ℕ :=
  (memoSlot memo verdict generation).getD memo.cursor

/-- `fzn_chain_memo_record`. -/
def memoRecord (memo : Memo) (verdict : VerifiedChain) (generation : ℕ) : ChainErr × Memo :=
  if generation = 0 then (.malformed, memo)
  else if memo.entries.length = 0 then (.ok, memo)
  else (.ok, { memo with
    entries := memo.entries.set (memoTarget memo verdict generation) (verdict.memoEntry generation)
    cursor :=
      if (memoSlot memo verdict generation).isNone then (memo.cursor + 1) % memo.entries.length
      else memo.cursor })

/-- The question moves counters alone. -/
@[simp]
theorem memoAllows_entries (memo : Memo) (root grantee : Key) (capability : CapId)
    (generation : ℕ) (now : UInt64) :
    (memoAllows memo root grantee capability generation now).2.entries = memo.entries := by
  unfold memoAllows
  split
  · rfl
  · rfl

/-- What a hit says of its slot. -/
theorem memoHit_eq_some {memo : Memo} {root grantee : Key} {generation : ℕ} {slot : ℕ}
    (h : memoHit memo root grantee capability generation now = some slot) :
    ∃ e, memo.entries[slot]? = some e ∧ e.generation ≠ 0 ∧ e.generation = generation ∧
      e.root = root ∧ e.grantee = grantee ∧ e.capability = capability ∧
      (e.expiresAt = noExpiry ∨ now < e.expiresAt) := by
  unfold memoHit at h
  split_ifs at h
  obtain ⟨hlt, hp, -⟩ := List.findIdx?_eq_some_iff_getElem.1 h
  refine ⟨memo.entries[slot], List.getElem?_eq_getElem hlt, ?_⟩
  simp only [MemoEntry.allows, MemoEntry.sameTriple, Bool.and_eq_true, decide_eq_true_eq,
    Bool.not_eq_true', decide_eq_false_iff_not] at hp
  obtain ⟨⟨⟨hne, heq⟩, hroot, hgrantee, hcap⟩, hexp⟩ := hp
  refine ⟨hne, heq, hroot, hgrantee, hcap, ?_⟩
  by_cases hno : memo.entries[slot].expiresAt = noExpiry
  · exact Or.inl hno
  · exact Or.inr (UInt64.not_le.1 fun hle => hexp ⟨hno, hle⟩)

/-- A verdict is written to one slot, unless it is under no generation. -/
theorem memoRecord_entries (memo : Memo) (verdict : VerifiedChain) (generation : ℕ) :
    (memoRecord memo verdict generation).2.entries =
      if generation = 0 then memo.entries
      else memo.entries.set (memoTarget memo verdict generation) (verdict.memoEntry generation) := by
  unfold memoRecord
  by_cases hgen : generation = 0
  · rw [if_pos hgen, if_pos hgen]
  · rw [if_neg hgen, if_neg hgen]
    by_cases hlen : memo.entries.length = 0
    · rw [if_pos hlen, List.length_eq_zero_iff.1 hlen, List.set_nil]
    · rw [if_neg hlen]

/-- Every slot but the one written keeps what it has. -/
theorem memoRecord_getElem? {memo : Memo} {verdict : VerifiedChain} {generation i : ℕ}
    {e : MemoEntry} (hgen : generation ≠ 0)
    (h : (memoRecord memo verdict generation).2.entries[i]? = some e) :
    (i = memoTarget memo verdict generation ∧ e = verdict.memoEntry generation ∧
        i < memo.entries.length) ∨
      (i ≠ memoTarget memo verdict generation ∧ memo.entries[i]? = some e) := by
  rw [memoRecord_entries, if_neg hgen] at h
  by_cases hi : i = memoTarget memo verdict generation
  · subst hi
    have hlt : memoTarget memo verdict generation < memo.entries.length := by
      by_contra hge
      rw [List.set_eq_of_length_le (by omega), List.getElem?_eq_none (by omega)] at h
      simp at h
    rw [List.getElem?_set_self hlt] at h
    exact Or.inl ⟨rfl, (Option.some.inj h).symm, hlt⟩
  · rw [List.getElem?_set_ne (Ne.symm hi)] at h
    exact Or.inr ⟨hi, h⟩

end Chain
end Fuzznet
