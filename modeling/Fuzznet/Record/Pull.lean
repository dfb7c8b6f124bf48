/-
# What a pull does

What a pull does to the journal and the store it is given is a list of records, the ones it
admitted, in their order: the journal is moved by them and nothing else, and the store is
what it was with each of them put at its own address, once, after it was admitted
(`Pulled`).  Every record of the list is signed, is the successor of the one before it on
its stream and names it, and the first of a stream names the head the journal held.  A put
that is refused ends the pull, so only the last record of the list can be missing from the
store, and only when the last answer was `FZN_EXCHANGE_ERR_STORE`.

A turn of the loop of `take_records` moves no position or admits one record and puts it
(`takeOne_effect`), so a reply, a step and a whole pull are `Pulled` too (`pulled_drive`).
-/

import Fuzznet.Record.OneChain
import Fuzznet.Record.PullBound
import Mathlib.Data.List.Nodup
import Mathlib.Logic.Function.Basic

namespace Fuzznet
namespace Record

open Wire Lib

variable {r : RecordView}

section

/-! ## What one admission does -/

variable {j j' : Journal} {k : StreamKey}

/-- No stream's position has moved; a fork may have been marked. -/
def SameLines (j j' : Journal) : Prop :=
  ∀ k, (position j k = none → position j' k = none) ∧
    ∀ e, position j k = some e → ∃ e', position j' k = some e' ∧
      e'.hasHead = e.hasHead ∧ e'.head = e.head ∧ e'.received = e.received

theorem SameLines.refl (j : Journal) : SameLines j j :=
  fun _ => ⟨id, fun e he => ⟨e, he, rfl, rfl, rfl⟩⟩

/-- A record that is not admitted moves no position. -/
theorem sameLines_of_not_ok {seq : UInt64} {prev id : RecId} {err : JournalErr}
    (h : journalAdmitChained j k seq prev id = (err, j')) (herr : err ≠ .ok) : SameLines j j' := by
  intro k'
  by_cases hk : k = k'
  swap
  · have hpos : position (journalStep j (.admitChained k seq prev id)).2 k' = position j k' :=
      position_journalStep_ne hk
    have hj : (journalStep j (.admitChained k seq prev id)).2 = j' := congrArg Prod.snd h
    rw [hj] at hpos
    exact ⟨fun hn => hpos.trans hn, fun e he => ⟨e, hpos.trans he, rfl, rfl, rfl⟩⟩
  subst hk
  unfold journalAdmitChained at h
  split at h
  · obtain ⟨-, rfl⟩ := Prod.mk.inj h
    exact SameLines.refl j k
  split at h
  · obtain ⟨-, rfl⟩ := Prod.mk.inj h
    exact SameLines.refl j k
  · next i e hfind =>
    obtain ⟨herr', hj⟩ := Prod.mk.inj h
    obtain ⟨hpos, hpos'⟩ := position_wrote hfind (advances_chainEntry e seq prev id).key
    have hj' : (writeEntry j i (chainEntry e seq prev id)).2 = j' := hj
    have hchain : (chainEntry e seq prev id).1 = err := herr'
    rw [hj'] at hpos'
    refine ⟨fun hn => absurd (hpos.symm.trans hn) (by simp), fun d hd => ?_⟩
    obtain rfl := Option.some.inj (hpos.symm.trans hd)
    exact ⟨_, hpos', chainEntry_not_ok (by rw [hchain]; exact herr)⟩

/-- **A record that is admitted is the next one of a stream that is followed**, names the head
held, and is the head from then on. -/
theorem journalAdmitChained_ok {seq : UInt64} {prev id : RecId}
    (h : journalAdmitChained j k seq prev id = (.ok, j')) :
    ∃ e, position j k = some e ∧ seq.toNat = e.received.toNat + 1 ∧
      (e.hasHead = true → prev = e.head) ∧
      position j' k = some { e with received := seq, head := id, hasHead := true } ∧
      ∀ k', k ≠ k' → position j' k' = position j k' := by
  have hothers : ∀ k', k ≠ k' → position j' k' = position j k' := by
    intro k' hk
    have hj : (journalStep j (.admitChained k seq prev id)).2 = j' := congrArg Prod.snd h
    rw [← hj]
    exact position_journalStep_ne hk
  unfold journalAdmitChained at h
  split at h
  · cases (Prod.mk.inj h).1
  split at h
  · cases (Prod.mk.inj h).1
  · next i e hfind =>
    obtain ⟨hok, hj⟩ := Prod.mk.inj h
    obtain ⟨heq, hseq, hprev⟩ := chainEntry_ok (show (chainEntry e seq prev id).1 = .ok from hok)
    obtain ⟨hpos, hpos'⟩ := position_wrote hfind (advances_chainEntry e seq prev id).key
    have hj' : (writeEntry j i (chainEntry e seq prev id)).2 = j' := hj
    rw [hj', heq] at hpos'
    exact ⟨e, hpos, hseq, hprev, hpos', hothers⟩

/-! ## What a turn does -/

section Turn

variable {S : Type} {sign : SignOps} {hash : HashOps} {ops : StoreOps S}

/-- What a turn leaves. -/
def TakeTurn.state : TakeTurn S → Taking S
  | .go _ s => s
  | .halt _ s => s

/-- What a turn answers: nothing, when it goes on. -/
def TakeTurn.err : TakeTurn S → ExchangeErr
  | .go _ _ => .ok
  | .halt err _ => err

/-- What `take_records` answers: nothing, when there is more to ask for. -/
def TakeEnd.err : TakeEnd → ExchangeErr
  | .more => .ok
  | .over err => err

variable (sign hash ops) in
/-- What a turn may do to the journal and the store: nothing that moves a position, or one
record admitted and put. -/
inductive TakeEffect (s : Taking S) (t : TakeTurn S) : Prop
  | quiet (hjournal : SameLines s.journal t.state.journal) (hstore : t.state.store = s.store) :
      TakeEffect s t
  | admitted (r : RecordView) (id : RecId) (hverify : recordVerify r sign = .ok ())
      (hhash : hash.hash r.bytes = some id)
      (hadmitted : journalAdmitChained s.journal r.key r.seq r.prev id = (.ok, t.state.journal))
      (hstore : t.state.store = (recordStorePut ops s.store r).2)
      (hput : (recordStorePut ops s.store r).1 = .ok () ∨ t.err = .store) : TakeEffect s t

theorem takeNext_state (off : ℕ) (s : Taking S) :
    (takeNext off s).state.journal = s.journal ∧ (takeNext off s).state.store = s.store := by
  unfold takeNext
  split
  · exact ⟨rfl, rfl⟩
  · exact ⟨rfl, rfl⟩

/-- What `take_records` asks of a record before the journal sees it. -/
theorem nextRecord_spec {want : SyncRequest} {next : UInt64} {bs : Bytes} {id : RecId}
    (h : nextRecord sign hash want next bs = some (r, id)) :
    r.key = want.key ∧ r.seq = next ∧ recordVerify r sign = .ok () ∧
      hash.hash r.bytes = some id := by
  unfold nextRecord at h
  split at h
  · cases h
  next q _ =>
  split at h
  · cases h
  next hok =>
  simp only [not_or, not_not] at hok
  obtain ⟨hissuer, hstream, hseq, hverify⟩ := hok
  obtain ⟨id', hid, heq⟩ := Option.map_eq_some_iff.1 h
  obtain ⟨rfl, rfl⟩ := Prod.mk.inj heq
  refine ⟨?_, hseq, hverify, hid⟩
  show (⟨q.issuer, q.stream⟩ : StreamKey) = want.key
  rw [hissuer, hstream]

/-- The store's part of a turn, after the journal admitted. -/
theorem takeStored_effect {s s' : Taking S} {off : ℕ} {id : RecId}
    (hverify : recordVerify r sign = .ok ()) (hhash : hash.hash r.bytes = some id)
    (hadmitted : journalAdmitChained s.journal r.key r.seq r.prev id = (.ok, s'.journal))
    (hstore : s'.store = s.store) : TakeEffect sign hash ops s (takeStored ops off r s') := by
  rw [takeStored, hstore]
  by_cases hput : (recordStorePut ops s.store r).1 = .ok ()
  · rw [if_neg (not_not.2 hput)]
    obtain ⟨hj, hst⟩ := takeNext_state off { s' with
      store := (recordStorePut ops s.store r).2
      tally := { s'.tally with learned := s'.tally.learned + 1 } }
    exact .admitted r id hverify hhash (by rw [hj]; exact hadmitted) hst (Or.inl hput)
  · rw [if_pos hput]
    exact .admitted r id hverify hhash hadmitted rfl (Or.inr rfl)

/-- The journal's part, and what follows from its answer. -/
theorem takeAdmitted_effect {want : SyncRequest} {off : ℕ} {id : RecId} {s : Taking S}
    (hkey : r.key = want.key) (hseq : r.seq = s.next) (hverify : recordVerify r sign = .ok ())
    (hhash : hash.hash r.bytes = some id) :
    TakeEffect sign hash ops s (takeAdmitted ops want off r id s) := by
  unfold takeAdmitted
  split
  · next j' hadmitted => exact .quiet (sameLines_of_not_ok hadmitted (by decide)) rfl
  · next j' hadmitted =>
    rw [← hkey, ← hseq] at hadmitted
    exact takeStored_effect hverify hhash hadmitted rfl
  · next j' hadmitted =>
    obtain ⟨hj, hst⟩ := takeNext_state off { s with journal := j' }
    exact .quiet (by rw [hj]; exact sameLines_of_not_ok hadmitted (by decide)) hst
  · next err j' _ hok _ hadmitted => exact .quiet (sameLines_of_not_ok hadmitted hok) rfl

/-- **A turn of the loop**, whatever the reply holds at its offset. -/
theorem takeOne_effect (want : SyncRequest) (reply : Bytes) (off : ℕ) (s : Taking S) :
    TakeEffect sign hash ops s (takeOne sign hash ops want reply off s) := by
  unfold takeOne
  split
  · exact .quiet (SameLines.refl _) rfl
  split
  · exact .quiet (SameLines.refl _) rfl
  split
  · exact .quiet (SameLines.refl _) rfl
  next r id hnext =>
  obtain ⟨hkey, hseq, hverify, hhash⟩ := nextRecord_spec hnext
  exact takeAdmitted_effect hkey hseq hverify hhash

end Turn

/-! ## What a pull has done -/

section Pulled

variable {S : Type} (sign : SignOps) (hash : HashOps) (ops : StoreOps S)

/-- What the journal is told of a record. -/
def recordLink (r : RecordView) : ChainLink := ⟨r.seq, r.prev, (hash.hash r.bytes).getD 0⟩

/-- The records of one stream, as links. -/
def streamLinks (k : StreamKey) (recs : List RecordView) : List ChainLink :=
  (recs.filter fun r => decide (r.key = k)).map (recordLink hash)

/-- The store with the records put, in their order. -/
def putAll (st : S) (recs : List RecordView) : S :=
  recs.foldl (fun st r => (recordStorePut ops st r).2) st

/-- A position moved from `e` to `e'` by the links: one after another from the next sequence
on, a hash chain from the head held to the head it has. -/
structure Extends (e e' : JournalEntry) (links : List ChainLink) : Prop where
  received : e'.received.toNat = e.received.toNat + links.length
  chained : ∃ p, (e.hasHead = true → p = e.head) ∧ Chained p e.received.toNat links ∧
    (e'.hasHead = true → e'.head = chainEnd p links)
  idle : links = [] → e'.hasHead = e.hasHead
  held : links ≠ [] → e'.hasHead = true

/-- What a record that was admitted is. -/
structure Admitted (j₀ j : Journal) (r : RecordView) : Prop where
  verified : recordVerify r sign = .ok ()
  hashed : (hash.hash r.bytes).isSome
  seq_ne : r.seq ≠ 0
  followed : position j₀ r.key ≠ none
  received : ∃ e, position j r.key = some e ∧ r.seq.toNat ≤ e.received.toNat

/-- **What a pull of `j₀` and `st₀` has done**, the last answer being `err`: it admitted
`recs`. -/
structure Pulled (j₀ : Journal) (st₀ : S) (recs : List RecordView) (err : ExchangeErr)
    (j : Journal) (st : S) : Prop where
  unfollowed : ∀ k, position j₀ k = none → position j k = none
  followed : ∀ k e, position j₀ k = some e →
    ∃ e', position j k = some e' ∧ Extends e e' (streamLinks hash k recs)
  admitted : ∀ r ∈ recs, Admitted sign hash j₀ j r
  nodup : (recs.map RecordView.addr).Nodup
  written : st = putAll ops st₀ recs
  kept : ∀ i r, recs[i]? = some r →
    (recordStorePut ops (putAll ops st₀ (recs.take i)) r).1 = .ok () ∨
      (err = .store ∧ i + 1 = recs.length)

variable {sign hash ops}

theorem streamLinks_concat_self (recs : List RecordView) (r : RecordView) :
    streamLinks hash r.key (recs ++ [r]) = streamLinks hash r.key recs ++ [recordLink hash r] := by
  rw [streamLinks, List.filter_append, List.map_append]
  simp [streamLinks]

variable {r : RecordView}

theorem streamLinks_concat_ne (recs : List RecordView) (h : r.key ≠ k) :
    streamLinks hash k (recs ++ [r]) = streamLinks hash k recs := by
  rw [streamLinks, List.filter_append, List.map_append]
  simp [streamLinks, h]

theorem Extends.refl (e : JournalEntry) : Extends e e [] := by
  refine ⟨rfl, ⟨e.head, fun _ => rfl, trivial, fun _ => rfl⟩, fun _ => rfl, fun h => absurd rfl h⟩

/-- A mark beside the position does not matter. -/
theorem Extends.same {e e' d : JournalEntry} {links : List ChainLink} (h : Extends e e' links)
    (hsame : d.hasHead = e'.hasHead ∧ d.head = e'.head ∧ d.received = e'.received) :
    Extends e d links := by
  obtain ⟨hhas, hhead, hrec⟩ := hsame
  obtain ⟨p, hp, hchain, hend⟩ := h.chained
  refine ⟨by rw [hrec, h.received], ⟨p, hp, hchain, fun hd => ?_⟩, fun hl => ?_, fun hl => ?_⟩
  · rw [hhead]
    exact hend (hhas ▸ hd)
  · rw [hhas, h.idle hl]
  · rw [hhas, h.held hl]

/-- **One link more**: the next sequence, naming the head held. -/
theorem Extends.concat {e e' : JournalEntry} {links : List ChainLink} (h : Extends e e' links)
    {l : ChainLink} (hseq : l.seq.toNat = e'.received.toNat + 1)
    (hprev : e'.hasHead = true → l.prev = e'.head) :
    Extends e { e' with received := l.seq, head := l.id, hasHead := true } (links ++ [l]) := by
  have hlen : l.seq.toNat = e.received.toNat + links.length + 1 := by rw [hseq, h.received]
  have hreceived : l.seq.toNat = e.received.toNat + (links ++ [l]).length := by
    rw [List.length_append, List.length_singleton]
    omega
  refine ⟨hreceived, ?_, fun hl => absurd hl (by simp), fun _ => rfl⟩
  obtain ⟨p, hp, hchain, hend⟩ := h.chained
  by_cases hhas : e'.hasHead = true
  · exact ⟨p, hp, chained_concat hchain ((hprev hhas).trans (hend hhas)) hlen,
      fun _ => by simp [chainEnd]⟩
  · -- No head was held, so this is the stream's first and the chain starts at what it names.
    have hnil : links = [] := by
      by_contra hne
      exact hhas (h.held hne)
    subst hnil
    refine ⟨l.prev, fun he => absurd ((h.idle rfl).trans he) hhas, ⟨rfl, hlen, trivial⟩,
      fun _ => ?_⟩
    simp [chainEnd]

variable {j₀ : Journal} {st₀ st : S} {recs : List RecordView} {err : ExchangeErr}

theorem pulled_start (j₀ : Journal) (st₀ : S) (err : ExchangeErr) :
    Pulled sign hash ops j₀ st₀ [] err j₀ st₀ :=
  ⟨fun _ h => h, fun _ e he => ⟨e, he, Extends.refl e⟩, by simp, by simp, rfl, by simp⟩

section

variable (h : Pulled sign hash ops j₀ st₀ recs .ok j st)
include h

/-- Nothing admitted, nothing put. -/
theorem Pulled.quiet (hsame : SameLines j j') (err : ExchangeErr) :
    Pulled sign hash ops j₀ st₀ recs err j' st := by
  refine ⟨fun k hk => (hsame k).1 (h.unfollowed k hk), fun k e he => ?_, fun r hr => ?_, h.nodup,
    h.written, fun i r hi => ?_⟩
  · obtain ⟨e', he', hext⟩ := h.followed k e he
    obtain ⟨d, hd, hline⟩ := (hsame k).2 e' he'
    exact ⟨d, hd, hext.same hline⟩
  · obtain ⟨hver, hhash, hseq, hfol, e, he, hle⟩ := h.admitted r hr
    obtain ⟨d, hd, -, -, hrec⟩ := (hsame _).2 e he
    exact ⟨hver, hhash, hseq, hfol, d, hd, by rw [hrec]; exact hle⟩
  · rcases h.kept i r hi with hok | ⟨hstore, -⟩
    · exact Or.inl hok
    · cases hstore

/-- The next sequence of a stream is past every record admitted of it. -/
theorem Pulled.addr_ne {e : JournalEntry} (hpos : position j r.key = some e)
    (hseq : r.seq.toNat = e.received.toNat + 1) : ∀ q ∈ recs, q.addr ≠ r.addr := by
  intro q hq haddr
  obtain ⟨d, hd, hle⟩ := (h.admitted q hq).received
  have hkey : q.key = r.key := congrArg StoreAddr.key haddr
  have hqseq : q.seq = r.seq := congrArg StoreAddr.seq haddr
  rw [hkey] at hd
  obtain rfl := Option.some.inj (hpos.symm.trans hd)
  rw [hqseq] at hle
  omega

/-- The puts with one more behind them, which may be refused. -/
theorem Pulled.kept_concat {err : ExchangeErr}
    (hput : (recordStorePut ops st r).1 = .ok () ∨ err = .store) :
    ∀ i q, (recs ++ [r])[i]? = some q →
      (recordStorePut ops (putAll ops st₀ ((recs ++ [r]).take i)) q).1 = .ok () ∨
        (err = .store ∧ i + 1 = (recs ++ [r]).length) := by
  intro i q hi
  rcases Nat.lt_or_ge i recs.length with hlt | hge
  · rw [List.getElem?_append_left hlt] at hi
    rw [List.take_append_of_le_length hlt.le]
    rcases h.kept i q hi with hok | ⟨hstore, -⟩
    · exact Or.inl hok
    · cases hstore
  · have hlen := (List.getElem?_eq_some_iff.1 hi).1
    rw [List.length_append, List.length_singleton] at hlen ⊢
    obtain rfl : i = recs.length := by omega
    rw [List.getElem?_append_right (le_refl _), Nat.sub_self, List.getElem?_cons_zero] at hi
    obtain rfl := Option.some.inj hi
    rw [List.take_left, ← h.written]
    exact hput.imp_right fun hs => ⟨hs, rfl⟩

/-- **One record admitted, then put.** -/
theorem Pulled.admit {id : RecId} (hverify : recordVerify r sign = .ok ())
    (hhash : hash.hash r.bytes = some id)
    (hadmitted : journalAdmitChained j r.key r.seq r.prev id = (.ok, j')) {err : ExchangeErr}
    (hput : (recordStorePut ops st r).1 = .ok () ∨ err = .store) :
    Pulled sign hash ops j₀ st₀ (recs ++ [r]) err j' (recordStorePut ops st r).2 := by
  obtain ⟨e, hpos, hseq, hprev, hpos', hothers⟩ := journalAdmitChained_ok hadmitted
  have hfollowed : ∃ e₀, position j₀ r.key = some e₀ := by
    cases hp : position j₀ r.key with
    | none => exact absurd (hpos.symm.trans (h.unfollowed _ hp)) (by simp)
    | some e₀ => exact ⟨e₀, rfl⟩
  have hlink : recordLink hash r = ⟨r.seq, r.prev, id⟩ := by
    rw [recordLink, hhash, Option.getD_some]
  have hgrow : ∀ k d, position j k = some d →
      ∃ d', position j' k = some d' ∧ d.received.toNat ≤ d'.received.toNat := by
    intro k d hd
    by_cases hk : r.key = k
    · subst hk
      obtain rfl := Option.some.inj (hpos.symm.trans hd)
      exact ⟨_, hpos', by simp only; omega⟩
    · exact ⟨d, (hothers k hk).trans hd, le_refl _⟩
  constructor
  · intro k hk
    by_cases hrk : r.key = k
    · subst hrk
      exact absurd (hpos.symm.trans (h.unfollowed _ hk)) (by simp)
    · rw [hothers k hrk]
      exact h.unfollowed k hk
  · intro k e₀ he₀
    obtain ⟨d, hd, hext⟩ := h.followed k e₀ he₀
    by_cases hrk : r.key = k
    · subst hrk
      obtain rfl := Option.some.inj (hpos.symm.trans hd)
      refine ⟨_, hpos', ?_⟩
      rw [streamLinks_concat_self, hlink]
      exact hext.concat (l := ⟨r.seq, r.prev, id⟩) hseq hprev
    · exact ⟨d, (hothers k hrk).trans hd, by rwa [streamLinks_concat_ne recs hrk]⟩
  · intro q hq
    rcases List.mem_append.1 hq with hq | hq
    · obtain ⟨hver, hh, hne, hfol, d, hd, hle⟩ := h.admitted q hq
      obtain ⟨d', hd', hle'⟩ := hgrow q.key d hd
      exact ⟨hver, hh, hne, hfol, d', hd', hle.trans hle'⟩
    · obtain rfl := List.mem_singleton.1 hq
      obtain ⟨e₀, he₀⟩ := hfollowed
      refine ⟨hverify, by rw [hhash]; rfl, fun hz => ?_, by rw [he₀]; simp, _, hpos', le_refl _⟩
      rw [hz] at hseq
      exact absurd hseq (by simp)
  · rw [List.map_append, List.map_singleton]
    refine h.nodup.append (List.nodup_singleton _) (List.disjoint_singleton.2 fun hmem => ?_)
    obtain ⟨q, hq, heq⟩ := List.mem_map.1 hmem
    exact h.addr_ne hpos hseq q hq heq
  · rw [putAll, List.foldl_append, List.foldl_cons, List.foldl_nil, h.written]
    rfl
  · exact h.kept_concat hput

end

/-- **What a turn does, a pull has done.** -/
theorem Pulled.turn {s : Taking S} {t : TakeTurn S}
    (h : Pulled sign hash ops j₀ st₀ recs .ok s.journal s.store)
    (heffect : TakeEffect sign hash ops s t) :
    ∃ recs, Pulled sign hash ops j₀ st₀ recs t.err t.state.journal t.state.store := by
  cases heffect with
  | quiet hjournal hstore =>
    rw [hstore]
    exact ⟨recs, h.quiet hjournal t.err⟩
  | admitted r id hverify hhash hadmitted hstore hput =>
    rw [hstore]
    exact ⟨recs ++ [r], h.admit hverify hhash hadmitted hput⟩

theorem Pulled.loop (want : SyncRequest) (reply : Bytes) (n off : ℕ) {s : Taking S}
    (h : Pulled sign hash ops j₀ st₀ recs .ok s.journal s.store) :
    ∃ recs, Pulled sign hash ops j₀ st₀ recs (takeLoop sign hash ops want reply n off s).1.err
      (takeLoop sign hash ops want reply n off s).2.journal
      (takeLoop sign hash ops want reply n off s).2.store := by
  induction n generalizing off s recs with
  | zero => exact ⟨recs, h⟩
  | succ n ih =>
    obtain ⟨recs', hturn⟩ := h.turn (takeOne_effect want reply off s)
    rw [takeLoop]
    cases hone : takeOne sign hash ops want reply off s with
    | go off' s' =>
      rw [hone] at hturn
      exact ih off' hturn
    | halt err s' =>
      rw [hone] at hturn
      exact ⟨recs', hturn⟩

/-- **One RECORDS reply**, whatever its bytes. -/
theorem Pulled.records (want : SyncRequest) (reply : Bytes) {s : Taking S}
    (h : Pulled sign hash ops j₀ st₀ recs .ok s.journal s.store) :
    ∃ recs, Pulled sign hash ops j₀ st₀ recs (takeRecords sign hash ops want reply s).1.err
      (takeRecords sign hash ops want reply s).2.journal
      (takeRecords sign hash ops want reply s).2.store := by
  unfold takeRecords
  split
  · exact ⟨recs, h.quiet (SameLines.refl _) .shape⟩
  split
  · exact ⟨recs, h⟩
  · exact h.loop want reply (getBe reply 2 2) 4

/-- **One step**, whatever the reply. -/
theorem Pulled.step {w : PullWorld S} (reply : Option Bytes)
    (h : Pulled sign hash ops j₀ st₀ recs .ok w.journal w.store) :
    ∃ recs, Pulled sign hash ops j₀ st₀ recs (pullStep sign hash ops w reply).1.err
      (pullStep sign hash ops w reply).2.journal (pullStep sign hash ops w reply).2.store := by
  have hwants : ∀ w' : PullWorld S, (pullWants w').1.err = .ok :=
    fun w' => (nextWant_spec w'.pulling).1
  have hfails : ∀ err, ∃ recs, Pulled sign hash ops j₀ st₀ recs err w.journal w.store :=
    fun err => ⟨recs, h.quiet (SameLines.refl _) err⟩
  unfold pullStep
  split
  · exact hfails .malformed
  · cases reply with
    | none => exact hfails .noAnswer
    | some bs =>
      show ∃ recs, Pulled sign hash ops j₀ st₀ recs (pullDigest w bs).1.err
        (pullDigest w bs).2.journal (pullDigest w bs).2.store
      unfold pullDigest
      split
      · exact hfails .shape
      · exact ⟨recs, h⟩
      split
      · exact hfails .malformed
      · rw [hwants]
        exact ⟨recs, h⟩
  · cases reply with
    | none => exact hfails .noAnswer
    | some bs =>
      dsimp only
      split
      · exact hfails .malformed
      next want _ =>
      obtain ⟨recs', htaken⟩ := Pulled.records want bs (s := ⟨w.journal, w.store, w.pulling.next,
        w.pulling.left, w.pulling.tally⟩) h
      unfold pullRecords
      split
      · next s hmore =>
        rw [hmore] at htaken
        split
        · exact ⟨recs', htaken⟩
        · rw [hwants]
          exact ⟨recs', htaken⟩
      · next err s hover =>
        rw [hover] at htaken
        split
        · exact ⟨recs', htaken⟩
        · next hok =>
          obtain rfl : err = .ok := not_not.1 hok
          rw [hwants]
          exact ⟨recs', htaken⟩

/-- One turn of the drive: a step while the pull goes on, nothing after. -/
theorem Pulled.driven {run : PullRun S} (reply : Option Bytes)
    (h : Pulled sign hash ops j₀ st₀ recs run.answer.err run.world.journal run.world.store) :
    ∃ recs, Pulled sign hash ops j₀ st₀ recs (driveStep sign hash ops run reply).answer.err
      (driveStep sign hash ops run reply).world.journal
      (driveStep sign hash ops run reply).world.store := by
  unfold driveStep
  split
  · next hgoing =>
    simp only [PullRun.going, Bool.and_eq_true, decide_eq_true_eq] at hgoing
    rw [hgoing.1] at h
    exact h.step reply
  · exact ⟨recs, h⟩

/-- **A pull driven by any replies.** -/
theorem pulled_drive (cap : UInt64) (j : Journal) (st : S) (replies : List (Option Bytes)) :
    ∃ recs, Pulled sign hash ops j st recs (drive sign hash ops cap j st replies).answer.err
      (drive sign hash ops cap j st replies).world.journal
      (drive sign hash ops cap j st replies).world.store := by
  refine Lib.foldl_induction (P := fun run : PullRun S =>
    ∃ recs, Pulled sign hash ops j st recs run.answer.err run.world.journal run.world.store)
    (fun pre reply _ ih => ?_) ?_
  · obtain ⟨recs, h⟩ := ih
    exact h.driven reply
  · unfold pullStart
    split
    · exact ⟨[], pulled_start j st _⟩
    · exact ⟨[], pulled_start j st _⟩

end Pulled

end

/-! ## A pull is safe

`Pulled` says what a pull has put and nothing of what a store is.  With a backend that
keeps what it takes (`StoreKeeps`) a record is still there at the end, since the other
puts of the pull are at other addresses, and an address no record of it carries is as it
was.  `PullSafe` is all of this, in the journal and in the store; `pull_safe_and_ends`
says it of every pull against every peer, beside `exists_not_going`. -/

section Held

variable {S : Type} {sign : SignOps} {hash : HashOps} {ops : StoreOps S} {j₀ j : Journal}
  {st₀ st : S} {recs : List RecordView} {err : ExchangeErr}

/-! ## What the store holds -/

variable {holds : S → StoreAddr → Bytes → Prop}

/-- A put leaves every other address as it is. -/
theorem StoreKeeps.recordStorePut_ne (hkeeps : StoreKeeps ops holds) (st : S) {a : StoreAddr}
    (h : r.addr ≠ a) (bs : Bytes) : holds (recordStorePut ops st r).2 a bs ↔ holds st a bs :=
  hkeeps.put_ne st r.addr r.bytes a bs (Ne.symm h)

/-- The same of all of them: an address none of the records carries. -/
theorem StoreKeeps.putAll_ne (hkeeps : StoreKeeps ops holds) (st : S) {recs : List RecordView}
    {a : StoreAddr} (h : ∀ r ∈ recs, r.addr ≠ a) (bs : Bytes) :
    holds (putAll ops st recs) a bs ↔ holds st a bs := by
  induction recs generalizing st with
  | nil => exact Iff.rfl
  | cons r recs ih =>
    have hrest : ∀ q ∈ recs, q.addr ≠ a := fun q hq => h q (List.mem_cons_of_mem r hq)
    exact (ih _ hrest).trans (hkeeps.recordStorePut_ne st (h r List.mem_cons_self) bs)

/-- The records around one of them, by their addresses. -/
theorem addr_ne_of_nodup {recs : List RecordView} (hnodup : (recs.map RecordView.addr).Nodup)
    {i : ℕ} (hi : recs[i]? = some r) :
    (∀ q ∈ recs.take i, q.addr ≠ r.addr) ∧ ∀ q ∈ recs.drop (i + 1), q.addr ≠ r.addr := by
  obtain ⟨hlt, rfl⟩ := List.getElem?_eq_some_iff.1 hi
  have hsplit : recs.take i ++ recs[i] :: recs.drop (i + 1) = recs := by
    rw [List.getElem_cons_drop, List.take_append_drop]
  rw [← hsplit, List.map_append, List.map_cons, List.nodup_append, List.nodup_cons] at hnodup
  obtain ⟨-, ⟨hafter, -⟩, hbefore⟩ := hnodup
  refine ⟨fun q hq => ?_, fun q hq heq => ?_⟩
  · exact hbefore q.addr (List.mem_map_of_mem hq) _ List.mem_cons_self
  · exact hafter (heq ▸ List.mem_map_of_mem hq)

/-- **A record is in the store as its put left it**: the puts before and after are at other
addresses. -/
theorem Pulled.holds_put (h : Pulled sign hash ops j₀ st₀ recs err j st)
    (hkeeps : StoreKeeps ops holds) {i : ℕ} (hi : recs[i]? = some r) (bs : Bytes) :
    (holds st r.addr bs ↔
      holds (recordStorePut ops (putAll ops st₀ (recs.take i)) r).2 r.addr bs) ∧
    (holds (putAll ops st₀ (recs.take i)) r.addr bs ↔ holds st₀ r.addr bs) := by
  obtain ⟨hbefore, hafter⟩ := addr_ne_of_nodup h.nodup hi
  refine ⟨?_, hkeeps.putAll_ne st₀ hbefore bs⟩
  have hst : st = putAll ops (recordStorePut ops (putAll ops st₀ (recs.take i)) r).2
      (recs.drop (i + 1)) := by
    obtain ⟨hlt, rfl⟩ := List.getElem?_eq_some_iff.1 hi
    have hsplit : recs = recs.take i ++ recs[i] :: recs.drop (i + 1) := by
      rw [List.getElem_cons_drop, List.take_append_drop]
    rw [h.written]
    conv_lhs => rw [hsplit]
    rw [putAll, List.foldl_append, List.foldl_cons]
    rfl
  rw [hst]
  exact hkeeps.putAll_ne _ hafter bs

/-- The put of a record answered success, unless it was the last and the pull said so. -/
theorem Pulled.put_ok (h : Pulled sign hash ops j₀ st₀ recs err j st) {i : ℕ}
    (hi : recs[i]? = some r) :
    (ops.put (putAll ops st₀ (recs.take i)) r.addr r.bytes).1 = true ∨
      (err = .store ∧ i + 1 = recs.length) := by
  refine (h.kept i r hi).imp_left fun hput => ?_
  by_contra hfail
  rw [recordStorePut, if_neg hfail] at hput
  cases hput

end Held

/-! ## The result -/

/-- A pull of `j` and `st` is safe so far, having admitted `recs`. -/
structure PullSafe {S : Type} (sign : SignOps) (hash : HashOps) (ops : StoreOps S)
    (holds : S → StoreAddr → Bytes → Prop) (j : Journal) (st : S) (recs : List RecordView)
    (run : PullRun S) : Prop where
  /-- A stream the journal does not follow is as it was, in the journal and in the store. -/
  untouched : ∀ k, position j k = none → position run.world.journal k = none ∧
    ∀ seq bs, holds run.world.store ⟨k, seq⟩ bs ↔ holds st ⟨k, seq⟩ bs
  /-- A stream it follows has moved by the records of it, each the successor of the one before
  and naming it, from the head held on. -/
  extended : ∀ k e, position j k = some e → ∃ e', position run.world.journal k = some e' ∧
    Extends e e' (streamLinks hash k recs)
  signed : ∀ r ∈ recs, recordVerify r sign = .ok () ∧ (hash.hash r.bytes).isSome
  /-- Every record admitted is in the store, but for the last when the store refused it. -/
  stored : ∀ i r, recs[i]? = some r → holds run.world.store r.addr r.bytes ∨
    (run.answer.err = .store ∧ i + 1 = recs.length)
  /-- What a reader finds at its address is it, or what was there before. -/
  read : ∀ i r, recs[i]? = some r → ∀ q, recordStoreGet ops run.world.store r.addr = .ok q →
    q = r ∨ holds st r.addr q.bytes ∨ (run.answer.err = .store ∧ i + 1 = recs.length)
  /-- No other address of the store is written. -/
  unwritten : ∀ a, (∀ r ∈ recs, r.addr ≠ a) →
    ∀ bs, holds run.world.store a bs ↔ holds st a bs

section Safe

variable {S : Type} {sign : SignOps} {hash : HashOps} {ops : StoreOps S}
  {holds : S → StoreAddr → Bytes → Prop} {st : S} {recs : List RecordView}

theorem Pulled.safe {run : PullRun S} (hkeeps : StoreKeeps ops holds)
    (h : Pulled sign hash ops j st recs run.answer.err run.world.journal run.world.store) :
    PullSafe sign hash ops holds j st recs run := by
  have hunwritten : ∀ a, (∀ r ∈ recs, r.addr ≠ a) →
      ∀ bs, holds run.world.store a bs ↔ holds st a bs := by
    intro a ha bs
    rw [h.written]
    exact hkeeps.putAll_ne st ha bs
  refine ⟨fun k hk => ⟨h.unfollowed k hk, fun seq bs => ?_⟩, h.followed, fun r hr => ?_,
    fun i r hi => ?_, fun i r hi q hq => ?_, hunwritten⟩
  · refine hunwritten ⟨k, seq⟩ (fun r hr haddr => ?_) bs
    have hkey : r.key = k := congrArg StoreAddr.key haddr
    rw [← hkey] at hk
    exact (h.admitted r hr).followed hk
  · exact ⟨(h.admitted r hr).verified, (h.admitted r hr).hashed⟩
  · refine (h.put_ok hi).imp_left fun hput => ?_
    exact (h.holds_put hkeeps hi r.bytes).1.2 (hkeeps.put_holds _ _ _ hput)
  · obtain ⟨hheld, -⟩ := hkeeps.recordStoreGet_holds hq
    obtain ⟨hput, hold⟩ := h.holds_put hkeeps hi q.bytes
    rcases h.put_ok hi with hok | hlost
    · rcases hkeeps.put_eq _ _ _ _ hok (hput.1 hheld) with hbefore | hsame
      · exact Or.inr (Or.inl (hold.1 hbefore))
      · exact Or.inl (RecordView.ext hsame)
    · exact Or.inr (Or.inr hlost)

/-- **A pull is safe and ends against any peer.**  Whatever the replies, silence among them, it
is over after no more of them than there are positions a digest is read to and records
requested, and after each of them it is safe. -/
theorem pull_safe_and_ends (hkeeps : StoreKeeps ops holds) (maxPerRequest : UInt64) (j : Journal)
    (st : S) (replies : ℕ → Option Bytes) :
    (∃ n, (drive sign hash ops maxPerRequest j st ((List.range n).map replies)).going = false ∧
      n ≤ syncMaxPositions +
        (drive sign hash ops maxPerRequest j st ((List.range n).map replies)).requested) ∧
    ∀ n, ∃ recs, PullSafe sign hash ops holds j st recs
      (drive sign hash ops maxPerRequest j st ((List.range n).map replies)) := by
  refine ⟨exists_not_going maxPerRequest j st replies, fun n => ?_⟩
  obtain ⟨recs, h⟩ := pulled_drive maxPerRequest j st ((List.range n).map replies)
  exact ⟨recs, h.safe hkeeps⟩

end Safe

/-! ### One record of one stream -/

/-- A backend that is a map, where a second record at one address replaces the first. -/
def mapOps : StoreOps (StoreAddr → Option Bytes) where
  put st a bs := (true, Function.update st a (some bs))
  get st a := (st a).elim (.error .absent) .ok

theorem mapOps_put (st : StoreAddr → Option Bytes) (a : StoreAddr) (bs : Bytes) :
    (mapOps.put st a bs).2 = Function.update st a (some bs) := rfl

theorem mapOps_keeps : StoreKeeps mapOps fun st a bs => st a = some bs := by
  refine ⟨fun st a bs _ => ?_, fun st a bs c _ h => ?_, fun st a bs b c hne => ?_,
    fun st a bs h => ?_⟩
  · rw [mapOps_put, Function.update_self]
  · rw [mapOps_put, Function.update_self] at h
    exact Or.inr (Option.some.inj h).symm
  · rw [mapOps_put, Function.update_of_ne hne]
  · cases hst : st a with
    | none => simp [mapOps, hst] at h
    | some c => simpa [mapOps, hst] using h

/-- The records of its stream, `n` of them below: the one below is named by its last bytes, which
is its hash (`tailHash`). -/
def linked (n : ℕ) : Bytes :=
  [1, 130] ++ putBe 32 7 ++ putBe 32 0 ++ putBe 4 3 ++ putBe 4 0 ++ putBe 8 (n + 1) ++
    putBe 32 (if n = 0 then 0 else n + 8) ++ putBe 8 0 ++ putBe 2 0 ++ putBe 64 (n + 9)

/-- The first of them. -/
def firstRecord : Bytes := linked 0

/-- A peer that claims one record and answers with it. -/
def oneRecord : ℕ → Option Bytes
  | 0 => some ([5, 2] ++ putBe 2 1 ++ putBe 2 0 ++ putBe 2 1 ++ putBe 32 7 ++ putBe 4 3 ++ putBe 8 1)
  | 1 => some ([5, 4] ++ putBe 2 1 ++ putBe 2 188 ++ firstRecord)
  | _ => none

/-- A journal that follows that stream and has nothing of it. -/
def oneStream : Journal := ⟨[freshEntry ⟨7, 3⟩], 1⟩

/-- The pull of that record, and whatever the peer does after. -/
theorem pull_safe_and_ends_one_record :
    (∃ n, (drive acceptingSign tailHash mapOps 16 oneStream (fun _ => none)
        ((List.range n).map oneRecord)).going = false ∧
      n ≤ syncMaxPositions + (drive acceptingSign tailHash mapOps 16 oneStream (fun _ => none)
        ((List.range n).map oneRecord)).requested) ∧
    ∀ n, ∃ recs, PullSafe acceptingSign tailHash mapOps (fun st a bs => st a = some bs) oneStream
      (fun _ => none) recs (drive acceptingSign tailHash mapOps 16 oneStream (fun _ => none)
        ((List.range n).map oneRecord)) :=
  pull_safe_and_ends mapOps_keeps 16 oneStream (fun _ => none) oneRecord

example : (drive acceptingSign tailHash mapOps 16 oneStream (fun _ => none)
    ((List.range 2).map oneRecord)).world.pulling.tally.learned = 1 := by decide +kernel

end Record
end Fuzznet
