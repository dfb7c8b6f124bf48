/-
# The push

`record/exchange.c`, the pusher.  A push reads the peer's digest as a pull does and walks
the positions it lists: `fzn_exchange_push_step` offers each listed stream's records from
behind the stated position up to what the journal has received, as many to a message as
fit, and passes to the next position when there is none to offer or the peer did not take
a message whole.

The journal and the store are read and not written, so they are parameters here.  A
position that is listed again is walked again: what is offered is told apart by position
(`Offering`), and each record is offered once while no position repeats what another of
its stream offers (`SettledDigest`).  `push_ends` bounds the steps of a push against any peer.
-/

import Fuzznet.Record.Answer
import Fuzznet.Record.Pull
import Fuzznet.Wire.Codec
import Mathlib.Data.List.Nodup

namespace Fuzznet
namespace Record

open Wire Lib

/-- `fzn_exchange_push_tally_t`. -/
structure PushTally where
  positions : ℕ
  offered : ℕ
  taken : ℕ
  held : ℕ
  refused : ℕ
  forks : ℕ
  deriving DecidableEq, Repr

/-- `PUSH_DIGEST`, `PUSH_OFFERS`, `PUSH_DONE`. -/
inductive PushPhase
  | digest
  | offers
  | done
  deriving DecidableEq, Repr

/-- `fzn_exchange_pushing_t`, without what it points at; `offerAt` is its `at`. -/
structure Pushing where
  phase : PushPhase
  digest : Digest
  offerAt : ℕ
  seq : UInt64
  mine : UInt64
  tally : PushTally
  deriving DecidableEq, Repr

/-- What a step answers: the error, the next message, and whether the push is over. -/
structure PushAnswer where
  err : ExchangeErr
  message : Option Bytes
  done : Bool
  deriving DecidableEq, Repr

/-- A PUSH of the records. -/
def pushMessage (rs : List RecordView) : Bytes :=
  [5, 5] ++ putBe 2 rs.length ++ rs.flatMap recordBytes

/-- `n` records one behind the other, as far as they open. -/
def recordsIn : ℕ → Bytes → List RecordView
  | 0, _ => []
  | n + 1, bs => match recordOpen (load bs 2 (getBe bs 0 2)) with
    | .error _ => []
    | .ok r => r :: recordsIn n (bs.drop (2 + getBe bs 0 2))

/-- The records a message puts to the peer: those of a PUSH. -/
def pushed (m : Bytes) : List RecordView :=
  if isMessage m 5 then recordsIn (getBe m 2 2) (m.drop 4) else []

section Step

variable {S : Type} (ops : StoreOps S) (st : S) (j : Journal) (cap : ℕ)

/-- The inner loop of `next_offer` on a stream, `n` being the records it may still count:
the records gathered and the next sequence. -/
def offerLoop (k : StreamKey) (mine : UInt64) :
    ℕ → UInt64 → List RecordView → List RecordView × UInt64
  | 0, seq, rs => (rs, seq)
  | n + 1, seq, rs =>
    if seq ≤ mine then
      match recordStoreGet ops st ⟨k, seq⟩ with
      | .error _ => (rs, seq)
      | .ok r =>
        if cap - (4 + (rs.flatMap recordBytes).length) < 2 + r.bytes.length then (rs, seq)
        else offerLoop k mine n (seq + 1) (rs ++ [r])
    else (rs, seq)

/-- `offer_bounds`: the peer's next and this host's last, of the position walked. -/
def offerBounds (p : Pushing) : Pushing :=
  match p.digest.theirs[p.offerAt]? with
  | none => p
  | some t => { p with mine := journalNext j t.key - 1, seq := t.received + 1 }

/-- The push at the next position. -/
def passOn (p : Pushing) : Pushing := offerBounds j { p with offerAt := p.offerAt + 1 }

/-- `next_offer`, over the positions from the one walked on. -/
def nextOfferFrom : List SyncPosition → Pushing → PushAnswer × Pushing
  | [], p => (⟨.ok, none, true⟩, { p with phase := .done })
  | t :: ts, p =>
    match offerLoop ops st cap t.key p.mine 0xffff p.seq [] with
    | ([], seq) => nextOfferFrom ts (passOn j { p with seq := seq })
    | (r :: rs, seq) => (⟨.ok, some (pushMessage (r :: rs)), false⟩,
        { p with
          seq := seq
          tally := { p.tally with offered := p.tally.offered + (r :: rs).length } })

/-- `next_offer`. -/
def nextOffer (p : Pushing) : PushAnswer × Pushing :=
  nextOfferFrom ops st j cap (p.digest.theirs.drop p.offerAt) p

/-- `fzn_exchange_push_begin`. -/
def pushBegin : Pushing × Bytes :=
  (⟨.digest, ⟨[], 0, 0⟩, 0, 0, 0, ⟨0, 0, 0, 0, 0, 0⟩⟩, digestQuery 0)

/-- The push over with an error. -/
def pushFails (err : ExchangeErr) (p : Pushing) : PushAnswer × Pushing :=
  (⟨err, none, false⟩, { p with phase := .done })

/-- `fzn_exchange_push_step` on a DIGEST. -/
def pushDigest (p : Pushing) (reply : Bytes) : PushAnswer × Pushing :=
  match digestTake p.digest reply with
  | (.bad, d) => pushFails .shape { p with digest := d }
  | (.more, d) => (⟨.ok, some (digestQuery d.theirs.length), false⟩, { p with digest := d })
  | (.read, d) => nextOffer ops st j cap (offerBounds j { p with
      digest := d
      tally := { p.tally with positions := d.theirs.length }
      phase := .offers
      offerAt := 0 })

/-- The counts of a PUSHED taken in.  A message not wholly taken ends its stream. -/
def takePushed (p : Pushing) (reply : Bytes) : Pushing :=
  if getBe reply 6 2 ≠ 0 ∨ getBe reply 8 2 ≠ 0 then
    passOn j { p with tally := { p.tally with
      taken := p.tally.taken + getBe reply 2 2
      held := p.tally.held + getBe reply 4 2
      refused := p.tally.refused + getBe reply 6 2
      forks := p.tally.forks + getBe reply 8 2 } }
  else { p with tally := { p.tally with
    taken := p.tally.taken + getBe reply 2 2
    held := p.tally.held + getBe reply 4 2
    refused := p.tally.refused + getBe reply 6 2
    forks := p.tally.forks + getBe reply 8 2 } }

/-- `fzn_exchange_push_step`. -/
def pushStep (p : Pushing) (reply : Option Bytes) : PushAnswer × Pushing :=
  match p.phase with
  | .done => (⟨.malformed, none, false⟩, p)
  | .digest =>
    match reply with
    | none => pushFails .noAnswer p
    | some bs => pushDigest ops st j cap p bs
  | .offers =>
    match reply with
    | none => pushFails .noAnswer p
    | some bs =>
      if isMessage bs 6 = false ∨ bs.length ≠ 10 then pushFails .shape p
      else nextOffer ops st j cap (takePushed j p bs)

/-! ## The push driven -/

/-- A push under way or over: the last answer and the messages put out. -/
structure PushRun where
  pushing : Pushing
  answer : PushAnswer
  sent : List Bytes

/-- The loop of `fzn_exchange_push` goes on. -/
def PushRun.going (run : PushRun) : Bool := decide (run.answer.err = .ok) && !run.answer.done

/-- One turn of the loop of `fzn_exchange_push`, the peer's reply being `reply`. -/
def pushDriveStep (run : PushRun) (reply : Option Bytes) : PushRun :=
  if run.going then
    ⟨(pushStep ops st j cap run.pushing reply).2, (pushStep ops st j cap run.pushing reply).1,
      run.sent ++ (pushStep ops st j cap run.pushing reply).1.message.toList⟩
  else run

/-- Where a push starts. -/
def pushStart : PushRun := ⟨pushBegin.1, ⟨.ok, some pushBegin.2, false⟩, [pushBegin.2]⟩

/-- `fzn_exchange_push`: the steps, on the peer's replies in their order. -/
def pushDrive (replies : List (Option Bytes)) : PushRun :=
  replies.foldl (pushDriveStep ops st j cap) pushStart

/-- The addresses of the records a push has offered so far, in order. -/
def PushRun.offered (run : PushRun) : List StoreAddr :=
  (run.sent.flatMap pushed).map RecordView.addr

end Step

/-! ## A message is read back -/

theorem recordsIn_frames (rs : List RecordView) (rest : Bytes) :
    recordsIn rs.length (rs.flatMap recordBytes ++ rest) = rs := by
  induction rs with
  | nil => rfl
  | cons r rs ih =>
    have hlen : r.bytes.length < 256 ^ 2 := by
      have := length_of_open r
      omega
    have hframe : (r :: rs).flatMap recordBytes ++ rest =
        putBe 2 r.bytes.length ++ (r.bytes ++ (rs.flatMap recordBytes ++ rest)) := by
      simp only [List.flatMap_cons, recordBytes, List.append_assoc]
    rw [List.length_cons, recordsIn, hframe, getBe_putBe_of_lt _ hlen]
    have hdrop : (putBe 2 r.bytes.length ++ (r.bytes ++ (rs.flatMap recordBytes ++ rest))).drop 2
        = r.bytes ++ (rs.flatMap recordBytes ++ rest) := List.drop_left' (length_putBe 2 _)
    rw [load, ← List.drop_drop, hdrop, List.take_left, List.drop_left, recordOpen_self]
    exact congrArg _ ih

/-- **What a PUSH says is what was put into it.** -/
theorem pushed_pushMessage {rs : List RecordView} (h : rs.length ≤ 0xffff) :
    pushed (pushMessage rs) = rs := by
  have hm : isMessage (pushMessage rs) 5 = true := by
    simp [isMessage, pushMessage, getBe]
  have hcount : getBe (pushMessage rs) 2 2 = rs.length := by
    rw [pushMessage, List.append_assoc, getBe_append_right (by simp)]
    exact getBe_putBe_of_lt _ (by omega)
  have hdrop : (pushMessage rs).drop 4 = rs.flatMap recordBytes :=
    List.drop_left' (by simp)
  rw [pushed, if_pos hm, hcount, hdrop]
  have := recordsIn_frames rs []
  rwa [List.append_nil] at this

theorem pushed_digestQuery (n : ℕ) : pushed (digestQuery n) = [] := by
  have hm : isMessage (digestQuery n) 5 = false := by
    simp [isMessage, digestQuery, getBe]
  rw [pushed, hm]
  rfl

/-! ## What is offered -/

section Offers

variable {S : Type} {ops : StoreOps S} {st : S} {j : Journal} {cap : ℕ}

/-- A sequence behind the journal's next is one it has received. -/
theorem le_mine {k : StreamKey} {x : UInt64} (hx : x ≠ 0) (h : x ≤ journalNext j k - 1) :
    x < seqMax ∧ ∃ e, position j k = some e ∧ x ≤ e.received := by
  have hpos : 0 < x.toNat := by
    have hz : x.toNat ≠ 0 := fun hz => hx (UInt64.toNat_inj.1 hz)
    omega
  have hle := UInt64.le_iff_toNat_le.1 h
  unfold journalNext at h hle
  split at hle
  · exact absurd hle (by simp; omega)
  split at hle
  · exact absurd hle (by simp; omega)
  next i e hfind =>
  have hmax : seqMax.toNat = 2 ^ 64 - 1 := rfl
  refine ⟨?_, e, by rw [position, hfind]; rfl, ?_⟩
  · rw [UInt64.lt_iff_toNat_lt, hmax]
    split at hle
    · have : (seqMax - 1).toNat = 2 ^ 64 - 2 := rfl
      omega
    · next hne =>
      have : e.received.toNat ≠ 2 ^ 64 - 1 := fun he => hne (UInt64.toNat_inj.1 (he.trans hmax.symm))
      rw [UInt64.add_sub_cancel] at hle
      have := e.received.toNat_lt
      omega
  · rw [UInt64.le_iff_toNat_le]
    split at hle
    · next he =>
      have : (seqMax - 1).toNat = 2 ^ 64 - 2 := rfl
      rw [he, hmax]
      omega
    · rwa [UInt64.add_sub_cancel] at hle

/-- A position has something to offer: its next is received here and in the store. -/
def Offers (ops : StoreOps S) (st : S) (j : Journal) (t : SyncPosition) : Prop :=
  t.received + 1 ≤ journalNext j t.key - 1 ∧
    ∃ r, recordStoreGet ops st ⟨t.key, t.received + 1⟩ = .ok r

/-- No position of the digest has anything to offer that another of its stream, at the
same number or above, says the peer holds or offers again. -/
def SettledDigest (ops : StoreOps S) (st : S) (j : Journal) (theirs : List SyncPosition) : Prop :=
  ∀ (a b : ℕ) (t u : SyncPosition), a ≠ b → theirs[a]? = some t → theirs[b]? = some u →
    t.key = u.key → t.received ≤ u.received → ¬Offers ops st j t

theorem recordStoreGet_ne_zero {a : StoreAddr} {r : RecordView}
    (h : recordStoreGet ops st a = .ok r) : a.seq ≠ 0 ∧ r.addr = a := by
  unfold recordStoreGet at h
  split at h
  · exact absurd h (by simp)
  next hne =>
  split at h
  · exact absurd h (by simp)
  split at h
  · exact absurd h (by simp)
  split at h
  · exact absurd h (by simp)
  next haddr =>
  obtain rfl := Except.ok.inj h
  exact ⟨hne, not_not.1 haddr⟩

/-- What a push has offered, told apart by the positions walked: each address comes from
one of them, and from the one being walked only behind its next. -/
structure Offering (ops : StoreOps S) (st : S) (j : Journal) (p : Pushing)
    (os : List StoreAddr) : Prop where
  bounds : ∀ t, p.digest.theirs[p.offerAt]? = some t → p.mine = journalNext j t.key - 1 ∧
    (p.seq = t.received + 1 ∨ t.received < p.seq ∧ Offers ops st j t)
  source : ∀ a ∈ os, ∃ i t, p.digest.theirs[i]? = some t ∧ i ≤ p.offerAt ∧ t.key = a.key ∧
    t.received < a.seq ∧ a.seq ≤ journalNext j t.key - 1 ∧ Offers ops st j t ∧
      (i = p.offerAt → a.seq < p.seq)
  once : SettledDigest ops st j p.digest.theirs → os.Nodup

variable {p : Pushing} {os : List StoreAddr}

/-- **One record offered.** -/
theorem Offering.record {t : SyncPosition} {r : RecordView} (h : Offering ops st j p os)
    (ht : p.digest.theirs[p.offerAt]? = some t) (hle : p.seq ≤ p.mine)
    (hget : recordStoreGet ops st ⟨t.key, p.seq⟩ = .ok r) :
    Offering ops st j { p with seq := p.seq + 1 } (os ++ [r.addr]) := by
  obtain ⟨hne, haddr⟩ := recordStoreGet_ne_zero hget
  obtain ⟨hmine, hseq⟩ := h.bounds t ht
  have hmax : p.seq.toNat < seqMax.toNat :=
    UInt64.lt_iff_toNat_lt.1 (le_mine hne (hmine ▸ hle)).1
  have hsucc : p.seq < p.seq + 1 := by
    have hone : (1 : UInt64).toNat = 1 := rfl
    have hlast : seqMax.toNat = 2 ^ 64 - 1 := rfl
    rw [UInt64.lt_iff_toNat_lt, UInt64.toNat_add, hone]
    omega
  -- the first record of a position is what it has to offer
  have hfrom : t.received < p.seq ∧ Offers ops st j t := by
    rcases hseq with hseq | hseq
    · refine ⟨?_, ?_, r, hseq ▸ hget⟩
      · have hne' : (t.received + 1).toNat ≠ 0 := fun hz => hne (hseq ▸ UInt64.toNat_inj.1 hz)
        have hone : (1 : UInt64).toNat = 1 := rfl
        have hlt := t.received.toNat_lt
        rw [hseq, UInt64.lt_iff_toNat_lt]
        rw [UInt64.toNat_add, hone] at hne' ⊢
        omega
      · rw [← hseq, ← hmine]
        exact hle
    · exact hseq
  refine ⟨fun u hu => ?_, fun a ha => ?_, fun hsettled => ?_⟩
  · obtain rfl : t = u := Option.some.inj (ht.symm.trans hu)
    exact ⟨hmine, Or.inr ⟨UInt64.lt_trans hfrom.1 hsucc, hfrom.2⟩⟩
  · rcases List.mem_append.1 ha with ha | ha
    · obtain ⟨i, u, hu, hi, hkey, hlt, hup, hoff, hat⟩ := h.source a ha
      exact ⟨i, u, hu, hi, hkey, hlt, hup, hoff, fun heq => UInt64.lt_trans (hat heq) hsucc⟩
    · obtain rfl := List.mem_singleton.1 ha
      refine ⟨p.offerAt, t, ht, Nat.le_refl _, ?_, ?_, ?_, hfrom.2, fun _ => ?_⟩ <;> rw [haddr]
      · exact hfrom.1
      · rw [← hmine]
        exact hle
      · exact hsucc
  · refine (h.once hsettled).append (List.nodup_singleton _)
      (List.disjoint_singleton.2 fun hmem => ?_)
    rw [haddr] at hmem
    obtain ⟨i, u, hu, hi, hkey, -, -, hoff, hat⟩ := h.source _ hmem
    rcases Nat.lt_or_eq_of_le hi with hlt | heq
    · -- another position of the stream has offered it
      rcases UInt64.le_total u.received t.received with hle | hle
      · exact hsettled i p.offerAt u t (Nat.ne_of_lt hlt) hu ht hkey hle hoff
      · exact hsettled p.offerAt i t u (Nat.ne_of_gt hlt) ht hu hkey.symm hle hfrom.2
    · exact UInt64.lt_irrefl _ (hat heq)

/-- The inner loop, one record at a time. -/
theorem offerLoop_induction {k : StreamKey} {mine : UInt64} {P : List RecordView → UInt64 → Prop}
    (hstep : ∀ rs seq r, seq ≤ mine → recordStoreGet ops st ⟨k, seq⟩ = .ok r → P rs seq →
      P (rs ++ [r]) (seq + 1)) {n : ℕ} {seq : UInt64} {rs : List RecordView} (h : P rs seq) :
    P (offerLoop ops st cap k mine n seq rs).1 (offerLoop ops st cap k mine n seq rs).2 ∧
      (offerLoop ops st cap k mine n seq rs).1.length ≤ rs.length + n := by
  induction n generalizing seq rs with
  | zero => exact ⟨h, Nat.le_refl _⟩
  | succ n ih =>
    rw [offerLoop]
    split
    case isFalse => exact ⟨h, Nat.le_add_right _ _⟩
    case isTrue hle =>
      split
      · exact ⟨h, Nat.le_add_right _ _⟩
      next r hget =>
      split
      · exact ⟨h, Nat.le_add_right _ _⟩
      · obtain ⟨hP, hlen⟩ := ih (hstep rs seq r hle hget h)
        refine ⟨hP, hlen.trans ?_⟩
        rw [List.length_append, List.length_singleton]
        omega

theorem offerBounds_digest (p : Pushing) :
    (offerBounds j p).digest = p.digest ∧ (offerBounds j p).offerAt = p.offerAt ∧
      (offerBounds j p).phase = p.phase := by
  unfold offerBounds
  split <;> exact ⟨rfl, rfl, rfl⟩

/-- Where a position is taken up, nothing of it is offered yet. -/
theorem Offering.take {p q : Pushing} (h : Offering ops st j p os) (hd : q.digest = p.digest)
    (hat : p.offerAt < q.offerAt) : Offering ops st j (offerBounds j q) os := by
  obtain ⟨hdig, hoff, -⟩ := offerBounds_digest (j := j) q
  refine ⟨fun t ht => ?_, fun a ha => ?_, fun hs => h.once ?_⟩
  · rw [hdig, hoff] at ht
    unfold offerBounds
    rw [ht]
    exact ⟨rfl, Or.inl rfl⟩
  · obtain ⟨i, u, hu, hi, hkey, hlt, hup, hoffers, -⟩ := h.source a ha
    refine ⟨i, u, by rw [hdig, hd]; exact hu, by rw [hoff]; omega, hkey, hlt, hup, hoffers, ?_⟩
    intro heq
    rw [hoff] at heq
    omega
  · rw [hdig, hd] at hs
    exact hs

theorem Offering.passOn (h : Offering ops st j p os) : Offering ops st j (passOn j p) os :=
  h.take rfl (Nat.lt_succ_self _)

/-- The fields `next_offer` does not read may change. -/
theorem Offering.congr {p q : Pushing} (h : Offering ops st j p os) (hd : q.digest = p.digest)
    (hat : q.offerAt = p.offerAt) (hs : q.seq = p.seq) (hm : q.mine = p.mine) :
    Offering ops st j q os := by
  refine ⟨?_, ?_, ?_⟩
  · rw [hd, hat, hs, hm]
    exact h.bounds
  · rw [hd, hat, hs]
    exact h.source
  · rw [hd]
    exact h.once

/-- What a step puts out. -/
def PushAnswer.offers (a : PushAnswer) : List StoreAddr :=
  (a.message.toList.flatMap pushed).map RecordView.addr

theorem Offering.offerLoop {t : SyncPosition} (cap : ℕ) (h : Offering ops st j p os)
    (ht : p.digest.theirs[p.offerAt]? = some t) :
    Offering ops st j { p with seq := (offerLoop ops st cap t.key p.mine 0xffff p.seq []).2 }
        (os ++ (offerLoop ops st cap t.key p.mine 0xffff p.seq []).1.map RecordView.addr) ∧
      (offerLoop ops st cap t.key p.mine 0xffff p.seq []).1.length ≤ 0xffff := by
  have hnil : Offering ops st j { p with seq := p.seq } (os ++ [].map RecordView.addr) := by
    rw [List.map_nil, List.append_nil]
    exact h
  obtain ⟨hP, hlen⟩ := @offerLoop_induction S ops st cap t.key p.mine
    (fun rs seq => Offering ops st j { p with seq := seq } (os ++ rs.map RecordView.addr))
    (fun rs seq r hle hget hrs => by
      rw [List.map_append, ← List.append_assoc]
      exact hrs.record (p := { p with seq := seq }) ht hle hget) 0xffff p.seq [] hnil
  exact ⟨hP, by simpa using hlen⟩

theorem Offering.nextOffer (h : Offering ops st j p os) :
    Offering ops st j (nextOffer ops st j cap p).2 (os ++ (nextOffer ops st j cap p).1.offers) := by
  obtain ⟨ts, hts⟩ : ∃ ts, ts = p.digest.theirs.drop p.offerAt := ⟨_, rfl⟩
  rw [Record.nextOffer, ← hts]
  induction ts generalizing p with
  | nil =>
    rw [nextOfferFrom]
    show Offering ops st j _ (os ++ [])
    rw [List.append_nil]
    exact h.congr rfl rfl rfl rfl
  | cons t ts ih =>
    have hat : p.digest.theirs[p.offerAt]? = some t := by
      rw [← List.head?_drop, ← hts, List.head?_cons]
    have hrest : ts = p.digest.theirs.drop (p.offerAt + 1) := by
      rw [← List.drop_drop, ← hts, List.drop_one, List.tail_cons]
    obtain ⟨hloop, hlen⟩ := Offering.offerLoop cap h hat
    rw [nextOfferFrom]
    split
    · next seq heq =>
      rw [heq, List.map_nil, List.append_nil] at hloop
      refine ih hloop.passOn ?_
      obtain ⟨hdig, hoff, -⟩ := offerBounds_digest (j := j)
        { p with seq := seq, offerAt := p.offerAt + 1 }
      rw [Record.passOn, hdig, hoff]
      exact hrest
    · next r rs seq heq =>
      rw [heq] at hloop hlen
      have hput : PushAnswer.offers ⟨.ok, some (pushMessage (r :: rs)), false⟩ =
          (r :: rs).map RecordView.addr := by
        rw [PushAnswer.offers, Option.toList_some, List.flatMap_cons, List.flatMap_nil,
          List.append_nil, pushed_pushMessage hlen]
      rw [hput]
      exact hloop.congr rfl rfl rfl rfl

theorem nextOffer_phase (h : p.phase = .offers) :
    (nextOffer ops st j cap p).2.phase ≠ .digest ∧
      (nextOffer ops st j cap p).2.digest = p.digest := by
  obtain ⟨ts, hts⟩ : ∃ ts, ts = p.digest.theirs.drop p.offerAt := ⟨_, rfl⟩
  rw [Record.nextOffer, ← hts]
  clear hts
  induction ts generalizing p with
  | nil => exact ⟨by simp [nextOfferFrom], rfl⟩
  | cons t ts ih =>
    rw [nextOfferFrom]
    split
    · next seq _ =>
      obtain ⟨hdig, -, hphase⟩ := offerBounds_digest (j := j)
        { p with seq := seq, offerAt := p.offerAt + 1 }
      obtain ⟨hne, heq⟩ := ih (p := passOn j { p with seq := seq }) (hphase.trans h)
      exact ⟨hne, heq.trans hdig⟩
    · exact ⟨by simp [h], rfl⟩

/-- What a push has offered, in every phase. -/
structure Pushed (ops : StoreOps S) (st : S) (j : Journal) (p : Pushing)
    (os : List StoreAddr) : Prop where
  offered : os = [] ∨ Offering ops st j p os
  digest : p.phase = .digest → os = []
  offers : p.phase = .offers → Offering ops st j p os

theorem Pushed.fails (h : Pushed ops st j p os) (err : ExchangeErr) :
    Pushed ops st j (pushFails err p).2 (os ++ (pushFails err p).1.offers) := by
  have hnil : (pushFails err p).1.offers = [] := rfl
  rw [hnil, List.append_nil]
  refine ⟨h.offered.imp id fun ho => ho.congr rfl rfl rfl rfl, fun hp => ?_, fun hp => ?_⟩
  · exact absurd hp (by simp [pushFails])
  · exact absurd hp (by simp [pushFails])

theorem Offering.pushed (h : Offering ops st j p os) (hphase : p.phase ≠ .digest) :
    Pushed ops st j p os :=
  ⟨Or.inr h, fun hp => absurd hp hphase, fun _ => h⟩

/-- Nothing is offered before the first position is taken up. -/
theorem offering_start (p : Pushing) : Offering ops st j (offerBounds j p) [] := by
  refine ⟨fun t ht => ?_, fun a ha => absurd ha List.not_mem_nil, fun _ => List.nodup_nil⟩
  obtain ⟨hdig, hoff, -⟩ := offerBounds_digest (j := j) p
  rw [hdig, hoff] at ht
  unfold offerBounds
  rw [ht]
  exact ⟨rfl, Or.inl rfl⟩

theorem Offering.takePushed (h : Offering ops st j p os) (reply : Bytes) :
    Offering ops st j (takePushed j p reply) os := by
  unfold Record.takePushed
  split
  · refine Offering.passOn ?_
    exact h.congr rfl rfl rfl rfl
  · exact h.congr rfl rfl rfl rfl

theorem takePushed_phase (p : Pushing) (reply : Bytes) :
    (takePushed j p reply).phase = p.phase ∧ (takePushed j p reply).digest = p.digest := by
  unfold takePushed
  split
  · obtain ⟨hdig, -, hphase⟩ := offerBounds_digest (j := j) { p with
      offerAt := p.offerAt + 1
      tally := { p.tally with
        taken := p.tally.taken + getBe reply 2 2
        held := p.tally.held + getBe reply 4 2
        refused := p.tally.refused + getBe reply 6 2
        forks := p.tally.forks + getBe reply 8 2 } }
    exact ⟨hphase, hdig⟩
  · exact ⟨rfl, rfl⟩

/-- **One step, whatever the reply.** -/
theorem Pushed.step (h : Pushed ops st j p os) (reply : Option Bytes) :
    Pushed ops st j (pushStep ops st j cap p reply).2
      (os ++ (pushStep ops st j cap p reply).1.offers) := by
  unfold pushStep
  split
  · have hnil : PushAnswer.offers ⟨.malformed, none, false⟩ = [] := rfl
    rw [hnil, List.append_nil]
    exact h
  · next hphase =>
    obtain rfl := h.digest hphase
    cases reply with
    | none => exact h.fails _
    | some bs =>
      simp only
      unfold pushDigest
      split
      · next d _ =>
        exact Pushed.fails (p := { p with digest := d })
          ⟨Or.inl rfl, fun _ => rfl, fun hp => absurd (hphase.symm.trans hp) (by simp)⟩ _
      · next d _ =>
        have hnil : PushAnswer.offers ⟨.ok, some (digestQuery d.theirs.length), false⟩ = [] := by
          rw [PushAnswer.offers, Option.toList_some, List.flatMap_cons, pushed_digestQuery]
          rfl
        rw [hnil]
        exact ⟨Or.inl rfl, fun _ => rfl, fun hp => absurd (hphase.symm.trans hp) (by simp)⟩
      · refine Offering.pushed (offering_start _).nextOffer (nextOffer_phase ?_).1
        rw [(offerBounds_digest _).2.2]
  · next hphase =>
    cases reply with
    | none => exact h.fails _
    | some bs =>
      simp only
      split
      · exact h.fails _
      · exact Offering.pushed ((h.offers hphase).takePushed bs).nextOffer
          (nextOffer_phase ((takePushed_phase p bs).1.trans hphase)).1

theorem pushed_drive (replies : List (Option Bytes)) :
    Pushed ops st j (pushDrive ops st j cap replies).pushing
      (pushDrive ops st j cap replies).offered := by
  refine Lib.foldl_induction (P := fun run : PushRun => Pushed ops st j run.pushing run.offered)
    (fun pre reply _ h => ?_) ?_
  · generalize pre.foldl (pushDriveStep ops st j cap) pushStart = run at h ⊢
    unfold pushDriveStep
    split
    · have hsent : PushRun.offered ⟨(pushStep ops st j cap run.pushing reply).2,
          (pushStep ops st j cap run.pushing reply).1,
          run.sent ++ (pushStep ops st j cap run.pushing reply).1.message.toList⟩ =
          run.offered ++ (pushStep ops st j cap run.pushing reply).1.offers := by
        rw [PushRun.offered, PushRun.offered, PushAnswer.offers, List.flatMap_append,
          List.map_append]
      rw [hsent]
      exact h.step reply
    · exact h
  · have hnil : pushStart.offered = [] := by
      rw [PushRun.offered, pushStart, List.flatMap_cons, pushBegin, pushed_digestQuery]
      rfl
    rw [hnil]
    exact ⟨Or.inl rfl, fun _ => rfl, fun hp => absurd hp (by simp [pushStart, pushBegin])⟩

/-! ## A push ends -/

/-- What a push in its offers may still use: the positions behind the one walked, and what
is left of that one. -/
def Pushing.left (p : Pushing) : ℕ :=
  (p.digest.theirs.length - p.offerAt) * 2 ^ 64 + (p.mine.toNat + 1 - p.seq.toNat)

theorem mine_lt (j : Journal) (k : StreamKey) : (journalNext j k - 1).toNat + 1 < 2 ^ 64 := by
  by_cases hz : journalNext j k - 1 = 0
  · rw [hz]
    decide
  · have := UInt64.lt_iff_toNat_lt.1 (le_mine hz (UInt64.le_refl _)).1
    have hmax : seqMax.toNat = 2 ^ 64 - 1 := rfl
    omega

theorem offerBounds_mine (h : p.mine.toNat + 1 < 2 ^ 64) :
    (offerBounds j p).mine.toNat + 1 < 2 ^ 64 := by
  unfold offerBounds
  split
  · exact h
  · exact mine_lt j _

/-- Taking a position up costs less than any position passed. -/
theorem left_passOn (hmine : p.mine.toNat + 1 < 2 ^ 64)
    (h : p.offerAt + 1 < p.digest.theirs.length) :
    (passOn j p).left < (p.digest.theirs.length - p.offerAt) * 2 ^ 64 := by
  have hlt := offerBounds_mine (j := j) (p := { p with offerAt := p.offerAt + 1 }) hmine
  obtain ⟨hdig, hoff, -⟩ := offerBounds_digest (j := j) { p with offerAt := p.offerAt + 1 }
  rw [passOn, Pushing.left, hdig, hoff]
  show (p.digest.theirs.length - (p.offerAt + 1)) * 2 ^ 64 + _ < _
  omega

/-- The inner loop moves the next sequence with each record, up to behind the last. -/
theorem offerLoop_seq {k : StreamKey} {mine seq : UInt64} (hmine : mine.toNat + 1 < 2 ^ 64)
    (n : ℕ) (hne : (offerLoop ops st cap k mine n seq []).1 ≠ []) :
    mine.toNat + 1 - (offerLoop ops st cap k mine n seq []).2.toNat <
      mine.toNat + 1 - seq.toNat := by
  refine (@offerLoop_induction S ops st cap k mine
    (fun rs x => seq.toNat ≤ x.toNat ∧
      (rs ≠ [] → mine.toNat + 1 - x.toNat < mine.toNat + 1 - seq.toNat))
    (fun rs x r hx _ hrs => ?_) n seq [] ⟨Nat.le_refl _, fun h => absurd rfl h⟩).1.2 hne
  have hx := UInt64.le_iff_toNat_le.1 hx
  have hone : (1 : UInt64).toNat = 1 := rfl
  have hsucc : (x + 1).toNat = x.toNat + 1 := by
    rw [UInt64.toNat_add, hone]
    omega
  obtain ⟨hle, -⟩ := hrs
  exact ⟨by omega, fun _ => by omega⟩

/-- **A message put out has used something up.** -/
theorem nextOffer_left (hmine : p.mine.toNat + 1 < 2 ^ 64)
    (hgo : (nextOffer ops st j cap p).1.done = false) :
    p.offerAt < p.digest.theirs.length ∧ (nextOffer ops st j cap p).2.left < p.left ∧
      (nextOffer ops st j cap p).2.mine.toNat + 1 < 2 ^ 64 ∧
        (nextOffer ops st j cap p).2.phase = p.phase := by
  obtain ⟨ts, hts⟩ : ∃ ts, ts = p.digest.theirs.drop p.offerAt := ⟨_, rfl⟩
  rw [nextOffer, ← hts] at hgo ⊢
  induction ts generalizing p with
  | nil => exact absurd hgo (by simp [nextOfferFrom])
  | cons t ts ih =>
    have hlt : p.offerAt < p.digest.theirs.length := by
      have := congrArg List.length hts
      rw [List.length_cons, List.length_drop] at this
      omega
    have hrest : ts = p.digest.theirs.drop (p.offerAt + 1) := by
      rw [← List.drop_drop, ← hts, List.drop_one, List.tail_cons]
    rw [nextOfferFrom] at hgo ⊢
    split at hgo
    · next seq heq =>
      obtain ⟨hdig, hoff, hphase⟩ := offerBounds_digest (j := j)
        { p with seq := seq, offerAt := p.offerAt + 1 }
      obtain ⟨hat, hleft, hmine', hphase'⟩ := ih (p := passOn j { p with seq := seq })
        (offerBounds_mine (p := { p with seq := seq, offerAt := p.offerAt + 1 }) hmine) hgo
        (by rw [passOn, hdig, hoff]; exact hrest)
      rw [passOn, hdig, hoff] at hat
      refine ⟨hlt, Nat.lt_of_lt_of_le hleft ?_, hmine', hphase'.trans hphase⟩
      have hpass := left_passOn (j := j) (p := { p with seq := seq }) hmine hat
      exact (Nat.le_of_lt hpass).trans (Nat.le_add_right _ _)
    · next r rs seq heq =>
      refine ⟨hlt, ?_, hmine, rfl⟩
      have hseq := @offerLoop_seq S ops st cap t.key p.mine p.seq hmine 0xffff
        (by rw [heq]; simp)
      rw [heq] at hseq
      exact Nat.add_lt_add_left hseq _

theorem length_digestTake {d d' : Digest} {reply : Bytes} {x : DigestAnswer}
    (h : digestTake d reply = (x, d')) (hd : d.theirs.length ≤ syncMaxPositions) :
    d'.theirs.length ≤ syncMaxPositions := by
  have hfill : (digestFill d.theirs reply).length ≤ syncMaxPositions := by
    rw [digestFill, List.length_append, List.length_take]
    omega
  unfold digestTake at h
  split at h
  · obtain ⟨-, rfl⟩ := Prod.mk.inj h
    exact hd
  split at h
  · obtain ⟨-, rfl⟩ := Prod.mk.inj h
    exact hd
  split at h <;> obtain ⟨-, rfl⟩ := Prod.mk.inj h
  · exact hfill
  · exact hfill

/-- The most steps a push takes. -/
def pushBound : ℕ := syncMaxPositions + (syncMaxPositions * 2 ^ 64 + 2 ^ 64)

/-- A push under way has not used what it may. -/
inductive PushUnderWay (p : Pushing) (steps : ℕ) : Prop
  | digest (hphase : p.phase = .digest) (hroom : p.digest.theirs.length < syncMaxPositions)
      (hmine : p.mine.toNat + 1 < 2 ^ 64) (hsteps : steps ≤ p.digest.theirs.length) :
      PushUnderWay p steps
  | offers (hphase : p.phase = .offers) (hmine : p.mine.toNat + 1 < 2 ^ 64)
      (hsteps : steps + p.left ≤ pushBound) : PushUnderWay p steps

theorem pushUnderWay_nextOffer {steps : ℕ} (hphase : p.phase = .offers)
    (hmine : p.mine.toNat + 1 < 2 ^ 64)
    (hsteps : p.offerAt < p.digest.theirs.length → steps + p.left ≤ pushBound)
    (hgo : (nextOffer ops st j cap p).1.done = false) :
    PushUnderWay (nextOffer ops st j cap p).2 (steps + 1) := by
  obtain ⟨hlt, hleft, hmine', hphase'⟩ := nextOffer_left hmine hgo
  have := hsteps hlt
  exact .offers (hphase'.trans hphase) hmine' (by omega)

theorem left_offerBounds (hmine : p.mine.toNat + 1 < 2 ^ 64)
    (hlen : p.digest.theirs.length ≤ syncMaxPositions) :
    (offerBounds j p).left ≤ syncMaxPositions * 2 ^ 64 + 2 ^ 64 := by
  have hlt := offerBounds_mine (j := j) hmine
  rw [Pushing.left, (offerBounds_digest p).1]
  refine Nat.add_le_add (Nat.mul_le_mul_right _ ((Nat.sub_le _ _).trans hlen)) ?_
  exact (Nat.sub_le _ _).trans hlt.le

/-- A page that is followed by another, or by the first offer. -/
theorem pushUnderWay_pushDigest {steps : ℕ} {bs : Bytes} (hphase : p.phase = .digest)
    (hroom : p.digest.theirs.length < syncMaxPositions) (hmine : p.mine.toNat + 1 < 2 ^ 64)
    (hsteps : steps ≤ p.digest.theirs.length) (herr : (pushDigest ops st j cap p bs).1.err = .ok)
    (hgo : (pushDigest ops st j cap p bs).1.done = false) :
    PushUnderWay (pushDigest ops st j cap p bs).2 (steps + 1) := by
  unfold pushDigest at herr hgo ⊢
  rcases hread : digestTake p.digest bs with ⟨x, d⟩
  rw [hread] at herr hgo
  cases x with
  | bad => exact absurd herr (by simp [pushFails])
  | more =>
    obtain ⟨hlt, hlt'⟩ := digestTake_more hread
    exact .digest hphase hlt' hmine (Nat.lt_of_le_of_lt hsteps hlt)
  | read =>
    have hleft := left_offerBounds (j := j) (p := { p with
      digest := d
      tally := { p.tally with positions := d.theirs.length }
      phase := .offers
      offerAt := 0 }) hmine (length_digestTake hread hroom.le)
    refine pushUnderWay_nextOffer (offerBounds_digest _).2.2 (offerBounds_mine hmine)
      (fun _ => ?_) hgo
    exact Nat.add_le_add (hsteps.trans hroom.le) hleft

/-- **One step that goes on**, whatever the reply. -/
theorem PushUnderWay.step {steps : ℕ} (h : PushUnderWay p steps) (reply : Option Bytes)
    (herr : (pushStep ops st j cap p reply).1.err = .ok)
    (hgo : (pushStep ops st j cap p reply).1.done = false) :
    PushUnderWay (pushStep ops st j cap p reply).2 (steps + 1) := by
  cases reply with
  | none =>
    cases h with
    | digest hphase => exact absurd herr (by simp [pushStep, hphase, pushFails])
    | offers hphase => exact absurd herr (by simp [pushStep, hphase, pushFails])
  | some bs =>
    cases h with
    | digest hphase hroom hmine hsteps =>
      have hstep : pushStep ops st j cap p (some bs) = pushDigest ops st j cap p bs := by
        rw [pushStep, hphase]
      rw [hstep] at herr hgo ⊢
      exact pushUnderWay_pushDigest hphase hroom hmine hsteps herr hgo
    | offers hphase hmine hsteps =>
      by_cases hshape : isMessage bs 6 = false ∨ bs.length ≠ 10
      · exact absurd herr (by simp [pushStep, hphase, hshape, pushFails])
      have hstep : pushStep ops st j cap p (some bs) =
          nextOffer ops st j cap (takePushed j p bs) := by
        simp only [pushStep, hphase, if_neg hshape]
      rw [hstep] at herr hgo ⊢
      refine pushUnderWay_nextOffer ((takePushed_phase p bs).1.trans hphase) ?_ ?_ hgo
      · unfold takePushed
        split
        · exact offerBounds_mine hmine
        · exact hmine
      · unfold takePushed
        split
        · intro hat
          obtain ⟨hdig, hoff, -⟩ := offerBounds_digest (j := j) { p with
            offerAt := p.offerAt + 1
            tally := { p.tally with
              taken := p.tally.taken + getBe bs 2 2
              held := p.tally.held + getBe bs 4 2
              refused := p.tally.refused + getBe bs 6 2
              forks := p.tally.forks + getBe bs 8 2 } }
          rw [passOn, hdig, hoff] at hat
          refine (Nat.add_le_add_left ?_ steps).trans hsteps
          refine (left_passOn (p := { p with tally := { p.tally with
            taken := p.tally.taken + getBe bs 2 2
            held := p.tally.held + getBe bs 4 2
            refused := p.tally.refused + getBe bs 6 2
            forks := p.tally.forks + getBe bs 8 2 } }) hmine hat).le.trans ?_
          exact Nat.le_add_right _ _
        · exact fun _ => hsteps

theorem pushUnderWay_drive (replies : List (Option Bytes))
    (hgo : (pushDrive ops st j cap replies).going = true) :
    PushUnderWay (pushDrive ops st j cap replies).pushing replies.length := by
  revert hgo
  refine Lib.prefix_induction (P := fun pre => (pushDrive ops st j cap pre).going = true →
    PushUnderWay (pushDrive ops st j cap pre).pushing pre.length) ?_ fun pre reply _ ih => ?_
  · exact fun _ => .digest rfl (show 0 < syncMaxPositions by decide)
      (show (0 : UInt64).toNat + 1 < 2 ^ 64 by decide) (Nat.le_refl 0)
  · have hrun : pushDrive ops st j cap (pre ++ [reply]) =
        pushDriveStep ops st j cap (pushDrive ops st j cap pre) reply := by
      rw [pushDrive, List.foldl_append]
      rfl
    rw [hrun, List.length_append, List.length_singleton]
    unfold pushDriveStep
    by_cases hgoing : (pushDrive ops st j cap pre).going = true
    · rw [if_pos hgoing]
      intro hgo
      simp only [PushRun.going, Bool.and_eq_true, decide_eq_true_eq, Bool.not_eq_true'] at hgo
      exact (ih hgoing).step reply hgo.1 hgo.2
    · rw [if_neg hgoing]
      exact fun h => absurd h hgoing

/-- **A push ends against any peer.** -/
theorem push_ends {replies : List (Option Bytes)} (h : pushBound < replies.length) :
    (pushDrive ops st j cap replies).going = false := by
  by_contra hgo
  have hspent := pushUnderWay_drive replies (Bool.eq_true_of_not_eq_false hgo)
  have hle : replies.length ≤ pushBound := by
    cases hspent with
    | digest _ hroom _ hsteps =>
      have : syncMaxPositions ≤ pushBound := Nat.le_add_right _ _
      omega
    | offers _ _ hsteps => exact (Nat.le_add_right _ _).trans hsteps
  exact absurd h (Nat.not_lt.2 hle)

/-- **Records are offered once, above what the peer stated.**  Whatever the peer answers, a
push ends; everything it offers lies behind a position the peer listed and within what
the journal has received.  In every run whose digest is settled, no record is offered
twice, and each is above every position the peer stated for its stream. -/
theorem push_offers (replies : List (Option Bytes)) :
    (pushBound < replies.length → (pushDrive ops st j cap replies).going = false) ∧
    (∀ a ∈ (pushDrive ops st j cap replies).offered,
      (∃ t ∈ (pushDrive ops st j cap replies).pushing.digest.theirs,
        t.key = a.key ∧ t.received < a.seq) ∧
      ∃ e, position j a.key = some e ∧ a.seq ≤ e.received) ∧
    (SettledDigest ops st j (pushDrive ops st j cap replies).pushing.digest.theirs →
      (pushDrive ops st j cap replies).offered.Nodup ∧
      ∀ a ∈ (pushDrive ops st j cap replies).offered,
        ∀ t ∈ (pushDrive ops st j cap replies).pushing.digest.theirs,
          t.key = a.key → t.received < a.seq) := by
  refine ⟨push_ends, ?_⟩
  have hpushed := @pushed_drive S ops st j cap replies
  generalize pushDrive ops st j cap replies = run at hpushed ⊢
  rcases hpushed.offered with hnil | hoff
  · rw [hnil]
    exact ⟨fun a ha => absurd ha List.not_mem_nil, fun _ => ⟨List.nodup_nil,
      fun a ha => absurd ha List.not_mem_nil⟩⟩
  · refine ⟨fun a ha => ?_, fun hsettled => ⟨hoff.once hsettled, fun a ha u hu hukey => ?_⟩⟩
    · obtain ⟨i, t, ht, -, hkey, hlt, hle, -, -⟩ := hoff.source a ha
      refine ⟨⟨t, List.mem_of_getElem? ht, hkey, hlt⟩, ?_⟩
      have hne : a.seq ≠ 0 := by
        rintro hz
        rw [hz] at hlt
        exact absurd hlt (UInt64.not_lt.2 UInt64.zero_le)
      rw [hkey] at hle
      exact (le_mine hne hle).2
    · obtain ⟨i, t, ht, -, hkey, hlt, -, hoffers, -⟩ := hoff.source a ha
      obtain ⟨n, hn⟩ := List.mem_iff_getElem?.1 hu
      rcases eq_or_ne i n with rfl | hne
      · obtain rfl := Option.some.inj (ht.symm.trans hn)
        exact hlt
      · -- another position of the stream, which is below
        have hbelow : ¬t.received ≤ u.received := fun hle =>
          hsettled i n t u hne ht hn (hkey.trans hukey.symm) hle hoffers
        exact UInt64.lt_trans (UInt64.not_le.1 hbelow) hlt

end Offers

/-! ### One record and a peer that names its stream once or twice -/

/-- A store with that record alone. -/
def oneHeld : StoreAddr → Option Bytes := fun a =>
  if a = ⟨⟨7, 3⟩, 1⟩ then some firstRecord else none

/-- A journal that has received it. -/
def oneReceived : Journal := ⟨[{ freshEntry ⟨7, 3⟩ with received := 1 }], 1⟩

/-- A DIGEST that lists its stream at nothing, `n` times. -/
def zeroDigest (n : ℕ) : Bytes :=
  [5, 2] ++ putBe 2 n ++ putBe 2 0 ++ putBe 2 n ++
    (List.replicate n (putBe 32 7 ++ putBe 4 3 ++ putBe 8 0)).flatten

/-- A PUSHED that took one record. -/
def tookOne : Bytes := [5, 6] ++ putBe 2 1 ++ putBe 2 0 ++ putBe 2 0 ++ putBe 2 0

/-- Listed twice, the record is offered twice, both times taken. -/
theorem push_repeats : ¬ ∀ (ops : StoreOps (StoreAddr → Option Bytes)) st j cap replies,
    706 ≤ cap → (pushDrive ops st j cap replies).offered.Nodup := by
  intro h
  have := h mapOps oneHeld oneReceived 706 [some (zeroDigest 2), some tookOne] (Nat.le_refl _)
  exact absurd this (by decide +kernel)

/-- A store of the second record of the stream, the first of them gone. -/
def secondHeld : StoreAddr → Option Bytes := fun a =>
  if a = ⟨⟨7, 3⟩, 2⟩ then some (linked 1) else none

/-- A journal that has received both. -/
def twoReceived : Journal := ⟨[{ freshEntry ⟨7, 3⟩ with received := 2 }], 1⟩

/-- A DIGEST that lists the stream at nothing and at its first record. -/
def twiceListed : Bytes :=
  [5, 2] ++ putBe 2 2 ++ putBe 2 0 ++ putBe 2 2 ++ (putBe 32 7 ++ putBe 4 3 ++ putBe 8 0) ++
    (putBe 32 7 ++ putBe 4 3 ++ putBe 8 1)

/-- Listed twice and offered once: behind the lower position there is nothing to offer.  And a push
that hears nothing ends. -/
theorem push_offers_listed_twice :
    (pushDrive mapOps secondHeld twoReceived 706 (List.replicate (pushBound + 1) none)).going =
      false ∧
    (pushDrive mapOps secondHeld twoReceived 706 [some twiceListed, some tookOne]).offered.Nodup ∧
    (pushDrive mapOps secondHeld twoReceived 706 [some twiceListed, some tookOne]).offered =
      [⟨⟨7, 3⟩, 2⟩] := by
  refine ⟨(push_offers _).1 (by rw [List.length_replicate]; exact Nat.lt_succ_self _),
    ((push_offers _).2.2 ?_).1, by decide +kernel⟩
  have htwo : (pushDrive mapOps secondHeld twoReceived 706
      [some twiceListed, some tookOne]).pushing.digest.theirs =
        [⟨⟨7, 3⟩, 0⟩, ⟨⟨7, 3⟩, 1⟩] := by
    decide +kernel
  rw [htwo]
  intro a b t u hne ha hb _ hle
  have hahi : a < 2 := (List.getElem?_eq_some_iff.1 ha).1
  have hbhi : b < 2 := (List.getElem?_eq_some_iff.1 hb).1
  obtain ⟨rfl, rfl⟩ | ⟨rfl, rfl⟩ : a = 0 ∧ b = 1 ∨ a = 1 ∧ b = 0 := by omega
  · obtain rfl := Option.some.inj ha
    rintro ⟨-, r, hr⟩
    cases hr
  · obtain rfl := Option.some.inj ha
    obtain rfl := Option.some.inj hb
    exact absurd hle (by decide)

end Record
end Fuzznet
