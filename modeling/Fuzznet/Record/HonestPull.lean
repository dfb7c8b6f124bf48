/-
# A pull from an honest peer

The peer answers each request out of a journal and a store that do not change
(`Record.Answer`), each time into a reply of a size of its own, and what a pull of it comes
to is said stream by stream (`honest_pull`).

The digest is read whole, a page at a time; the plan asks once for every stream the peer is
ahead on (`Planned`); and a range is paged until it is full, each reply beginning at the
next record and holding one at least.  The account of a pull under way is `Going`, kept by
every step (`Going.step`).  That the pull ends is what it does against any peer
(`exists_not_going`).
-/

import Fuzznet.Record.Answer
import Fuzznet.Record.Pull
import Mathlib.Data.List.Perm.Subperm

namespace Fuzznet
namespace Record

open Wire Lib

/-! ## Journals of distinct streams -/

/-- No stream has two entries. -/
def StreamsApart (j : Journal) : Prop := (j.entries.map JournalEntry.key).Nodup

section Apart

variable {j : Journal} {k : StreamKey} {e : JournalEntry}

theorem mem_of_position (h : position j k = some e) : e ∈ j.entries ∧ e.key = k := by
  obtain ⟨⟨i, d⟩, hfind, rfl⟩ := Option.map_eq_some_iff.1 h
  obtain ⟨hi, hkey⟩ := journalFind_some hfind
  exact ⟨List.mem_of_getElem? hi, hkey⟩

/-- Where streams are apart, an entry is its stream's position. -/
theorem StreamsApart.position (hapart : StreamsApart j) (h : e ∈ j.entries) :
    position j e.key = some e := by
  cases hpos : Record.position j e.key with
  | none =>
    have hfind : journalFind j e.key = none := Option.map_eq_none_iff.1 hpos
    exact absurd hfind (lastRow_ne_none h rfl)
  | some d =>
    obtain ⟨hd, hkey⟩ := mem_of_position hpos
    rw [List.inj_on_of_nodup_map hapart hd h hkey]

/-- An entry written in place keeps its stream. -/
theorem map_key_set {entries : List JournalEntry} {i : ℕ} {d : JournalEntry}
    (hi : entries[i]? = some e) (hkey : d.key = e.key) :
    (entries.set i d).map JournalEntry.key = entries.map JournalEntry.key := by
  obtain ⟨hlt, rfl⟩ := List.getElem?_eq_some_iff.1 hi
  rw [List.map_set, hkey]
  have hlt' : i < (entries.map JournalEntry.key).length := by rwa [List.length_map]
  conv_rhs => rw [← List.set_getElem_self hlt']
  rw [List.getElem_map]

/-- **A journal keeps its streams apart:** a stream gets an entry where it has none. -/
theorem StreamsApart.step (h : StreamsApart j) (c : JournalCall) :
    StreamsApart (journalStep j c).2 := by
  have hcase := journalStep_cases j c
  generalize journalStep j c = r at hcase ⊢
  cases hcase with
  | refused hne => exact h
  | @wrote i d hfind =>
    obtain ⟨hi, -⟩ := journalFind_some hfind
    show ((j.entries.set i (c.onEntry d).2).map JournalEntry.key).Nodup
    rw [map_key_set hi (advances_onEntry c d).key]
    exact h
  | @opened seq hc hnone =>
    have hkey : (openedEntry c.key seq).key = c.key := by
      unfold openedEntry
      split_ifs <;> rfl
    exact nodup_concat_of_lastRow h (by rwa [hkey])

/-- **A journal has one entry a stream**, whatever it is asked. -/
theorem streamsApart_run {capacity : ℕ} (hinit : journalInit capacity = .ok j)
    (calls : List JournalCall) : StreamsApart (journalRun j calls) := by
  have hempty : StreamsApart j := by
    rw [journalInit_ok hinit]
    exact List.nodup_nil
  exact foldl_induction (P := StreamsApart) (fun _ c _ hs => hs.step c) hempty

theorem streamsApart_twoStreams :
    StreamsApart (journalRun ⟨[], 2⟩ [.anchor ⟨1, 5⟩ 0, .anchor ⟨2, 5⟩ 3, .admitSeq ⟨1, 5⟩ 1]) :=
  @streamsApart_run _ 2 rfl _

end Apart

/-! ## The plan -/

/-- One turn after another, the positions of a stream. -/
theorem theirsFor_spec (theirs : List SyncPosition) (k : StreamKey) :
    (∀ t, theirsFor theirs k = some t → t ∈ theirs ∧ t.key = k) ∧
      (theirsFor theirs k = none → ∀ t ∈ theirs, t.key ≠ k) := by
  refine prefix_induction (P := fun pre => (∀ t, theirsFor pre k = some t → t ∈ pre ∧ t.key = k) ∧
    (theirsFor pre k = none → ∀ t ∈ pre, t.key ≠ k)) ?_ fun pre u _ ih => ?_
  · refine ⟨fun t ht => ?_, fun _ t ht => ?_⟩
    · cases ht
    · cases ht
  obtain ⟨hsome, hnone⟩ := ih
  have hstep : theirsFor (pre ++ [u]) k = largerPosition k (theirsFor pre k) u := by
    unfold theirsFor
    rw [List.foldl_append]
    rfl
  rw [hstep]
  unfold largerPosition
  by_cases hu : u.key = k
  · rw [if_pos hu]
    have hlast : u ∈ pre ++ [u] := List.mem_append_right _ (List.mem_singleton.2 rfl)
    cases hhit : theirsFor pre k with
    | none =>
      refine ⟨fun t ht => ?_, fun hn => by cases hn⟩
      obtain rfl := Option.some.inj ht
      exact ⟨hlast, hu⟩
    | some h =>
      obtain ⟨hmem, hkey⟩ := hsome h hhit
      dsimp only
      split
      · refine ⟨fun t ht => ?_, fun hn => by cases hn⟩
        obtain rfl := Option.some.inj ht
        exact ⟨hlast, hu⟩
      · refine ⟨fun t ht => ?_, fun hn => by cases hn⟩
        obtain rfl := Option.some.inj ht
        exact ⟨List.mem_append_left _ hmem, hkey⟩
  · rw [if_neg hu]
    refine ⟨fun t ht => ⟨List.mem_append_left _ (hsome t ht).1, (hsome t ht).2⟩,
      fun hn t ht => ?_⟩
    obtain ht | ht := List.mem_append.1 ht
    · exact hnone hn t ht
    · rw [List.mem_singleton.1 ht]
      exact hu

/-- What a plan asks of the positions `theirs` for the entries: once for each stream the peer
is ahead on, from the next sequence, as much as there is or is asked at once. -/
structure Planned (entries : List JournalEntry) (theirs : List SyncPosition)
    (maxPerRequest : UInt64) (requests : List SyncRequest) : Prop where
  ahead : ∀ r ∈ requests, ∃ e ∈ entries, ∃ t ∈ theirs, e.key = r.key ∧ t.key = r.key ∧
    e.received < t.received ∧ r.fromSeq = e.received + 1 ∧
    r.count = min (t.received - e.received) maxPerRequest
  apart : (requests.map SyncRequest.key).Nodup
  whole : ∀ e ∈ entries, ∀ t ∈ theirs, t.key = e.key → e.received < t.received →
    ∃ r ∈ requests, r.key = e.key

section Plan

variable {entries : List JournalEntry} {theirs : List SyncPosition} {maxPerRequest : UInt64}
variable {requests : List SyncRequest} {mine : JournalEntry}

/-- An entry the peer is not ahead of asks for nothing. -/
theorem Planned.skip (h : Planned entries theirs maxPerRequest requests)
    (hbehind : ∀ t ∈ theirs, t.key = mine.key → t.received ≤ mine.received) :
    Planned (entries ++ [mine]) theirs maxPerRequest requests := by
  refine ⟨fun r hr => ?_, h.apart, fun e he t ht hkey hlt => ?_⟩
  · obtain ⟨e, he, hrest⟩ := h.ahead r hr
    exact ⟨e, List.mem_append_left _ he, hrest⟩
  · obtain he | he := List.mem_append.1 he
    · exact h.whole e he t ht hkey hlt
    · obtain rfl := List.mem_singleton.1 he
      exact absurd hlt (UInt64.not_lt.2 (hbehind t ht hkey))

/-- A stream not asked for yet. -/
theorem Planned.new (h : Planned entries theirs maxPerRequest requests)
    (hnew : mine.key ∉ entries.map JournalEntry.key) :
    mine.key ∉ requests.map SyncRequest.key := by
  intro hmem
  obtain ⟨r, hr, hkey⟩ := List.mem_map.1 hmem
  obtain ⟨e, he, -, -, hsame, -⟩ := h.ahead r hr
  exact hnew (List.mem_map.2 ⟨e, he, hsame.trans hkey⟩)

variable {t : SyncPosition} {r : SyncRequest}

section

variable (h : Planned entries theirs maxPerRequest requests)
  (hnew : mine.key ∉ entries.map JournalEntry.key) (ht : t ∈ theirs) (hkey : t.key = mine.key)
include h hnew ht hkey

/-- **There is room for every stream the peer has.** -/
theorem Planned.room : requests.length < theirs.length := by
  have hnodup : (mine.key :: requests.map SyncRequest.key).Nodup :=
    List.nodup_cons.2 ⟨h.new hnew, h.apart⟩
  have hsub : mine.key :: requests.map SyncRequest.key ⊆ theirs.map SyncPosition.key := by
    intro k hk
    obtain rfl | hk := List.mem_cons.1 hk
    · exact List.mem_map.2 ⟨t, ht, hkey⟩
    · obtain ⟨r, hr, rfl⟩ := List.mem_map.1 hk
      obtain ⟨-, -, u, hu, -, hukey, -⟩ := h.ahead r hr
      exact List.mem_map.2 ⟨u, hu, hukey⟩
  have hle := (hnodup.subperm hsub).length_le
  rw [List.length_cons, List.length_map, List.length_map] at hle
  omega

theorem Planned.ask (hlt : mine.received < t.received) :
    Planned (entries ++ [mine]) theirs maxPerRequest (requests ++
      [⟨mine.key, mine.received + 1, min (t.received - mine.received) maxPerRequest⟩]) := by
  refine ⟨fun r hr => ?_, ?_, fun e he u hu hukey hless => ?_⟩
  · obtain hr | hr := List.mem_append.1 hr
    · obtain ⟨e, he, hrest⟩ := h.ahead r hr
      exact ⟨e, List.mem_append_left _ he, hrest⟩
    · obtain rfl := List.mem_singleton.1 hr
      exact ⟨mine, List.mem_append_right _ (List.mem_singleton.2 rfl), t, ht, rfl, hkey, hlt, rfl,
        rfl⟩
  · rw [List.map_append, List.map_singleton]
    exact h.apart.append (List.nodup_singleton _) (List.disjoint_singleton.2 (h.new hnew))
  · obtain he | he := List.mem_append.1 he
    · obtain ⟨r, hr, hrkey⟩ := h.whole e he u hu hukey hless
      exact ⟨r, List.mem_append_left _ hr, hrkey⟩
    · obtain rfl := List.mem_singleton.1 he
      exact ⟨_, List.mem_append_right _ (List.mem_singleton.2 rfl), rfl⟩

end

/-- The turns of the planner over entries of distinct streams. -/
theorem planned_foldl {start : SyncPlan} (hstart : start.requests = [])
    (hapart : (entries.map JournalEntry.key).Nodup)
    (hfew : theirs.length ≤ syncMaxPositions)
    (htheirs : (theirs.map SyncPosition.key).Nodup) :
    Planned entries theirs maxPerRequest
      (entries.foldl (planEntry theirs maxPerRequest syncMaxPositions) start).requests := by
  refine prefix_induction (P := fun pre => Planned pre theirs maxPerRequest
    (pre.foldl (planEntry theirs maxPerRequest syncMaxPositions) start).requests)
    ?_ fun pre mine hle ih => ?_
  · rw [List.foldl_nil, hstart]
    exact ⟨fun r hr => absurd hr (by simp), List.nodup_nil, fun e he => absurd he (by simp)⟩
  have hnew : mine.key ∉ pre.map JournalEntry.key := by
    have hsub := (hle.map JournalEntry.key).sublist.nodup hapart
    rw [List.map_append, List.map_singleton] at hsub
    exact fun hmem => (List.nodup_append.1 hsub).2.2 _ hmem _ (List.mem_singleton.2 rfl) rfl
  rw [List.foldl_append, List.foldl_cons, List.foldl_nil]
  generalize pre.foldl (planEntry theirs maxPerRequest syncMaxPositions) start = plan at ih ⊢
  unfold planEntry
  obtain ⟨hsome, hnone⟩ := theirsFor_spec theirs mine.key
  cases hhit : theirsFor theirs mine.key with
  | none => exact ih.skip fun t ht hkey => absurd hkey (hnone hhit t ht)
  | some t =>
    obtain ⟨ht, hkey⟩ := hsome t hhit
    dsimp only
    unfold addRange
    split
    · next hbehind =>
        refine ih.skip fun u hu hukey => ?_
        rw [List.inj_on_of_nodup_map htheirs hu ht (hukey.trans hkey.symm)]
        exact hbehind
    next hahead =>
      have hroom := ih.room hnew ht hkey
      rw [if_neg (by omega)]
      exact ih.ask hnew ht hkey (UInt64.not_le.1 hahead)

/-- **The plan** of a journal against few positions of distinct streams. -/
theorem planFetch_planned {j : Journal} (husable : journalUsable j = true)
    (hapart : StreamsApart j) (hmax : maxPerRequest ≠ 0)
    (hfew : theirs.length ≤ syncMaxPositions)
    (htheirs : (theirs.map SyncPosition.key).Nodup) :
    ∃ plan, planFetch j theirs maxPerRequest syncMaxPositions = some plan ∧
      Planned j.entries theirs maxPerRequest plan.requests := by
  have hlook : theirs.take syncMaxPositions = theirs := List.take_of_length_le hfew
  have hargs : ¬(maxPerRequest = 0 ∨ journalUsable j = false) := by simp [hmax, husable]
  unfold planFetch
  rw [if_neg hargs, hlook]
  exact ⟨_, rfl, planned_foldl rfl hapart hfew htheirs⟩

end Plan

/-! ## A range paged -/

/-- The id a stream's chain has at a sequence, in a store; zero in front of the first. -/
def chainAt {S : Type} (hash : HashOps) (ops : StoreOps S) (st : S) (k : StreamKey) (n : ℕ) :
    Option RecId :=
  if n = 0 then some 0
  else match recordStoreGet ops st ⟨k, UInt64.ofNat n⟩ with
    | .error _ => none
    | .ok r => hash.hash r.bytes

/-- The next record of a stream that follows the head held is admitted. -/
theorem journalAdmitChained_next {j : Journal} {k : StreamKey} {seq : UInt64} {prev id : RecId}
    {e : JournalEntry} (husable : journalUsable j = true) (hpos : position j k = some e)
    (hseq : seq.toNat = e.received.toNat + 1) (hprev : e.hasHead = true → prev = e.head) :
    ∃ j', journalAdmitChained j k seq prev id = (.ok, j') ∧ journalUsable j' = true := by
  obtain ⟨⟨i, d⟩, hfind, hd⟩ := Option.map_eq_some_iff.1 hpos
  obtain rfl : d = e := hd
  have hne : seq ≠ 0 := fun hz => by
    rw [hz] at hseq
    exact absurd hseq (by simp)
  have hsame : seq ≠ d.received := fun heq => by
    rw [heq] at hseq
    omega
  have hnext : seq = d.received + 1 := by
    apply UInt64.toNat_inj.1
    have hlt := seq.toNat_lt
    rw [UInt64.toNat_add, hseq]
    exact (Nat.mod_eq_of_lt (by show d.received.toNat + 1 < _; omega)).symm
  have hdup : ¬ seq ≤ d.received := fun hle => by
    have := UInt64.le_iff_toNat_le.1 hle
    omega
  have hgap : ¬ seq > d.received + 1 := by
    rw [← hnext]
    exact UInt64.lt_irrefl _
  have hchain : (chainEntry d seq prev id).1 = .ok := by
    unfold chainEntry admitEntry
    rw [if_neg (fun h => hsame h.2.1), if_neg (fun h => h.2.2 (hprev h.2.1).symm), if_neg hdup,
      if_neg hgap]
  unfold journalAdmitChained
  rw [if_neg (by simp [husable, hne]), hfind]
  refine ⟨_, Prod.ext hchain rfl, ?_⟩
  unfold journalUsable writeEntry
  rw [List.length_set]
  exact husable

section Range

variable {S T : Type} {sign : SignOps} {hash : HashOps} {ops : StoreOps S} {peer : StoreOps T}
variable {theirSt : T} {holds : S → StoreAddr → Bytes → Prop} {k : StreamKey} {a : ℕ}
variable {want : SyncRequest} {reply rest : Bytes} {off : ℕ} {s s' : Taking S}
variable (hash peer theirSt holds) in
/-- A stream taken from the sequence `a` up to the next one: the position is there, its head
is the peer's, and the peer's records are stored. -/
structure TakenTo (k : StreamKey) (a : ℕ) (s : Taking S) : Prop where
  usable : journalUsable s.journal = true
  line : ∃ e, position s.journal k = some e ∧ e.received.toNat + 1 = s.next.toNat ∧
    (e.hasHead = true → chainAt hash peer theirSt k e.received.toNat = some e.head)
  kept : ∀ n, a < n → n < s.next.toNat → ∃ r,
    recordStoreGet peer theirSt ⟨k, UInt64.ofNat n⟩ = .ok r ∧
      holds s.store ⟨k, UInt64.ofNat n⟩ r.bytes

variable (holds) in
/-- Every other stream is as it was, in the journal and in the store. -/
def ElseSame (k : StreamKey) (j : Journal) (st : S) (j' : Journal) (st' : S) : Prop :=
  ∀ k', k ≠ k' → position j' k' = position j k' ∧
    ∀ seq bs, holds st' ⟨k', seq⟩ bs ↔ holds st ⟨k', seq⟩ bs

theorem ElseSame.refl (k : StreamKey) (j : Journal) (st : S) : ElseSame holds k j st j st :=
  fun _ _ => ⟨rfl, fun _ _ => Iff.rfl⟩

theorem ElseSame.trans {j j' j'' : Journal} {st st' st'' : S}
    (h : ElseSame holds k j st j' st') (h' : ElseSame holds k j' st' j'' st'') :
    ElseSame holds k j st j'' st'' := fun k' hk =>
  ⟨(h' k' hk).1.trans (h k' hk).1, fun seq bs => ((h' k' hk).2 seq bs).trans ((h k' hk).2 seq bs)⟩

variable (sign hash peer theirSt) in
/-- What the peer has of a stream after sequence `n`: a record that is signed, hashed and names
the chain up to `n`. -/
def HasNext (k : StreamKey) (n : ℕ) : Prop :=
  ∃ r id, recordStoreGet peer theirSt ⟨k, UInt64.ofNat (n + 1)⟩ = .ok r ∧
    recordVerify r sign = .ok () ∧ hash.hash r.bytes = some id ∧
    chainAt hash peer theirSt k n = some r.prev

/-- What a store answers for an address is filed there. -/
theorem addr_of_get {r : RecordView} {x : StoreAddr} (h : recordStoreGet peer theirSt x = .ok r) :
    r.addr = x := by
  unfold recordStoreGet at h
  split at h
  · cases h
  split at h
  · cases h
  split at h
  · cases h
  split at h
  · cases h
  · next haddr =>
      obtain rfl := Except.ok.inj h
      exact Decidable.not_not.1 haddr

/-- **One record taken:** it is admitted and stored, and nothing else is. -/
theorem takeOne_honest (hkeeps : StoreKeeps ops holds)
    (haccepts : ∀ st x bs, (ops.put st x bs).1 = true) (hwant : want.key = k)
    (htaken : TakenTo hash peer theirSt holds k a s) {r : RecordView}
    (hat : reply.drop off = recordBytes r ++ rest)
    (hget : recordStoreGet peer theirSt ⟨k, s.next⟩ = .ok r)
    (hnext : HasNext sign hash peer theirSt k (s.next.toNat - 1)) (hlast : s.next ≠ seqMax) :
    ∃ s', s'.next.toNat = s.next.toNat + 1 ∧ s'.left = s.left - 1 ∧
      TakenTo hash peer theirSt holds k a s' ∧
      ElseSame holds k s.journal s.store s'.journal s'.store ∧
      takeOne sign hash ops want reply off s =
        if s.left - 1 = 0 then .halt .ok s' else .go (off + 2 + r.bytes.length) s' := by
  obtain ⟨hroom, hfits, hlen, hload, -⟩ := recordBytes_at hat
  obtain ⟨e, hpos, hreceived, hhead⟩ := htaken.line
  have hseq : s.next.toNat = e.received.toNat + 1 := hreceived.symm
  have hback : s.next.toNat - 1 + 1 = s.next.toNat := by omega
  have hbefore : s.next.toNat - 1 = e.received.toNat := by omega
  obtain ⟨q, id, hq, hverify, hhash, hchain⟩ := hnext
  rw [hback, UInt64.ofNat_toNat, hget] at hq
  obtain rfl := Except.ok.inj hq
  rw [hbefore] at hchain
  have haddr : r.addr = ⟨k, s.next⟩ := addr_of_get hget
  have hrkey : r.key = k := congrArg StoreAddr.key haddr
  have hrseq : r.seq = s.next := congrArg StoreAddr.seq haddr
  have hrecord : nextRecord sign hash want s.next (load reply (off + 2) (getBe reply off 2)) =
      some (r, id) := by
    have hissuer : r.issuer = want.key.issuer := by
      rw [hwant, ← hrkey]
      rfl
    have hstream : r.stream = want.key.stream := by
      rw [hwant, ← hrkey]
      rfl
    rw [hlen, hload]
    unfold nextRecord
    rw [recordOpen_self]
    simp [hissuer, hstream, hrseq, hverify, hhash]
  obtain ⟨j', hadm, husable⟩ := @journalAdmitChained_next s.journal k s.next r.prev id e
    htaken.usable hpos hseq fun h => Option.some.inj (hchain.symm.trans (hhead h))
  obtain ⟨d, hd, -, -, hpos', hothers⟩ := journalAdmitChained_ok hadm
  obtain rfl := Option.some.inj (hpos.symm.trans hd)
  have hput : (recordStorePut ops s.store r).1 = .ok () := by
    unfold recordStorePut
    rw [if_pos (haccepts _ _ _)]
  have hplus : (s.next + 1).toNat = s.next.toNat + 1 := by
    have hlt := s.next.toNat_lt
    have hne : s.next.toNat ≠ 18446744073709551615 := fun h => hlast (UInt64.toNat_inj.1 h)
    rw [UInt64.toNat_add]
    exact Nat.mod_eq_of_lt (by show s.next.toNat + 1 < _; omega)
  have hstored : holds (recordStorePut ops s.store r).2 ⟨k, s.next⟩ r.bytes := by
    rw [← haddr]
    exact hkeeps.put_holds _ _ _ (haccepts _ _ _)
  refine ⟨⟨j', (recordStorePut ops s.store r).2, s.next + 1, s.left - 1,
    { s.tally with learned := s.tally.learned + 1 }⟩, hplus, rfl, ⟨husable, ?_, ?_⟩, ?_, ?_⟩
  · refine ⟨_, hpos', ?_, fun _ => ?_⟩
    · show s.next.toNat + 1 = (s.next + 1).toNat
      exact hplus.symm
    · show chainAt hash peer theirSt k s.next.toNat = some id
      unfold chainAt
      rw [if_neg (by omega), UInt64.ofNat_toNat, hget]
      exact hhash
  · intro n hn hlt
    have hlt : n < s.next.toNat + 1 := by rwa [← hplus]
    by_cases hnew : n = s.next.toNat
    · refine ⟨r, ?_, ?_⟩
      · rw [hnew, UInt64.ofNat_toNat]
        exact hget
      · rw [hnew, UInt64.ofNat_toNat]
        exact hstored
    · obtain ⟨q, hq, hheld⟩ := htaken.kept n hn (by omega)
      refine ⟨q, hq, (hkeeps.recordStorePut_ne _ ?_ _).2 hheld⟩
      rw [haddr]
      intro heq
      have hn64 : n < 2 ^ 64 := by
        have hlt := s.next.toNat_lt
        omega
      have hsame := congrArg UInt64.toNat (congrArg StoreAddr.seq heq)
      rw [UInt64.toNat_ofNat_of_lt' hn64] at hsame
      exact hnew hsame.symm
  · intro k' hk
    refine ⟨hothers k' hk, fun seq bs => hkeeps.recordStorePut_ne _ ?_ bs⟩
    rw [haddr]
    exact fun heq => hk (congrArg StoreAddr.key heq)
  · unfold takeOne
    rw [if_neg hroom, if_neg hfits, hrecord]
    simp only [takeAdmitted, hwant, hadm, takeStored, takeNext]
    rw [if_neg (by simp [hput]), hlen]

variable {recs : List RecordView} (hkeeps : StoreKeeps ops holds)
  (haccepts : ∀ st x bs, (ops.put st x bs).1 = true) (hwant : want.key = k) (hleft : s.left ≠ 0)
  (hmany : recs.length ≤ s.left.toNat) (htaken : TakenTo hash peer theirSt holds k a s)
  (hrecs : ∀ i r, recs[i]? = some r →
    recordStoreGet peer theirSt ⟨k, UInt64.ofNat (s.next.toNat + i)⟩ = .ok r ∧
      HasNext sign hash peer theirSt k (s.next.toNat + i - 1) ∧ s.next.toNat + i < seqMax.toNat)
include hkeeps haccepts hwant hleft hmany htaken hrecs

/-- **The records of a reply taken**, one after another. -/
theorem takeLoop_honest (hbody : reply.drop off = recs.flatMap recordBytes) :
    ∃ s', s'.next.toNat = s.next.toNat + recs.length ∧
      s'.left.toNat + recs.length = s.left.toNat ∧
      TakenTo hash peer theirSt holds k a s' ∧
      ElseSame holds k s.journal s.store s'.journal s'.store ∧
      takeLoop sign hash ops want reply recs.length off s =
        (if s'.left = 0 then .over .ok else .more, s') := by
  induction recs generalizing off s with
  | nil =>
    refine ⟨s, rfl, rfl, htaken, ElseSame.refl _ _ _, ?_⟩
    rw [if_neg hleft]
    rfl
  | cons r recs ih =>
    obtain ⟨hget, hnext, hlt⟩ := hrecs 0 r rfl
    rw [Nat.add_zero] at hget hnext hlt
    rw [UInt64.ofNat_toNat] at hget
    have hlast : s.next ≠ seqMax := fun h => by
      rw [h] at hlt
      omega
    rw [List.flatMap_cons] at hbody
    obtain ⟨s₁, hnext₁, hleft₁, htaken₁, hsame₁, hone⟩ :=
      takeOne_honest hkeeps haccepts hwant htaken hbody hget hnext hlast
    have hpos : s.left.toNat ≠ 0 := fun h => hleft (UInt64.toNat_inj.1 h)
    have hcount : s₁.left.toNat + 1 = s.left.toNat := by
      have hle : (1 : UInt64) ≤ s.left := UInt64.le_iff_toNat_le.2 (by
        show 1 ≤ s.left.toNat
        omega)
      rw [hleft₁, UInt64.toNat_sub_of_le _ _ hle]
      show s.left.toNat - 1 + 1 = s.left.toNat
      omega
    rw [List.length_cons] at hmany ⊢
    rw [takeLoop, hone]
    by_cases hover : s.left - 1 = 0
    · have hzero : s₁.left.toNat = 0 := by
        rw [hleft₁, hover]
        rfl
      obtain rfl : recs = [] := List.eq_nil_of_length_eq_zero (by omega)
      refine ⟨s₁, hnext₁, hcount, htaken₁, hsame₁, ?_⟩
      rw [if_pos hover, if_pos (hleft₁.trans hover)]
    · rw [if_neg hover]
      have hrest : reply.drop (off + 2 + r.bytes.length) = recs.flatMap recordBytes :=
        (recordBytes_at hbody).2.2.2.2
      obtain ⟨s₂, hnext₂, hleft₂, htaken₂, hsame₂, hloop⟩ :=
        ih (by rw [hleft₁]; exact hover) (by omega) htaken₁ (fun i q hq => by
          have hall := hrecs (i + 1) q hq
          have hshift : s₁.next.toNat + i = s.next.toNat + (i + 1) := by omega
          rwa [hshift]) hrest
      exact ⟨s₂, by omega, by omega, htaken₂, hsame₁.trans hsame₂, hloop⟩

/-- **A reply of the peer's records taken whole.** -/
theorem takeRecords_honest (hfew : recs.length < 65536) (hsome : recs ≠ []) :
    ∃ s', s'.next.toNat = s.next.toNat + recs.length ∧
      s'.left.toNat + recs.length = s.left.toNat ∧
      TakenTo hash peer theirSt holds k a s' ∧
      ElseSame holds k s.journal s.store s'.journal s'.store ∧
      takeRecords sign hash ops want (recordsReply recs) s =
        (if s'.left = 0 then .over .ok else .more, s') := by
  obtain ⟨hmessage, hlen, hcount, hbody⟩ := recordsReply_head hfew
  have hpos : recs.length ≠ 0 := fun h => hsome (List.eq_nil_of_length_eq_zero h)
  unfold takeRecords
  rw [hcount, if_neg (by simp [hmessage, hlen]), if_neg hpos]
  exact takeLoop_honest hkeeps haccepts hwant hleft hmany htaken hrecs hbody

end Range

/-! ## The peer and the pull of it -/

variable {S T : Type}

/-- A peer that has every record up to each position it claims, each signed and naming the one
before. -/
structure Serves (sign : SignOps) (hash : HashOps) (peer : StoreOps T) (j : Journal) (st : T) :
    Prop where
  usable : journalUsable j = true
  apart : StreamsApart j
  few : j.entries.length ≤ syncMaxPositions
  below : ∀ e ∈ j.entries, e.received ≠ seqMax
  chain : ∀ e ∈ j.entries, ∀ n, n < e.received.toNat → HasNext sign hash peer st e.key n

/-- On every stream both follow, a journal's chain is a prefix of the peer's, or longer. -/
def PrefixOrLonger (hash : HashOps) (peer : StoreOps T) (st : T) (mine theirs : Journal) : Prop :=
  ∀ k e t, position mine k = some e → position theirs k = some t → e.received ≤ t.received →
    e.hasHead = true → chainAt hash peer st k e.received.toNat = some e.head

section Closed

variable (sign : SignOps) (hash : HashOps) (ops : StoreOps S) (peer : StoreOps T)
variable (theirs : Journal) (theirSt : T)

/-- The peer's reply to the request a pull has out; silence where it has no answer. -/
def peerReply (run : PullRun S) (cap : ℕ) : Option Bytes :=
  match run.answer.request with
  | none => none
  | some request =>
    if exchangeAnswer peer theirs theirSt request cap = [] then none
    else some (exchangeAnswer peer theirs theirSt request cap)

/-- `fzn_exchange_pull` with the peer behind `ask`, the reply to request `n` of at most `caps n`
bytes. -/
def pullFrom (maxPerRequest : UInt64) (j : Journal) (st : S) (caps : ℕ → ℕ) : ℕ → PullRun S
  | 0 => pullStart maxPerRequest j st
  | n + 1 => driveStep sign hash ops (pullFrom maxPerRequest j st caps n)
      (peerReply peer theirs theirSt (pullFrom maxPerRequest j st caps n) (caps n))

theorem pullFrom_eq_drive (maxPerRequest : UInt64) (j : Journal) (st : S) (caps : ℕ → ℕ) (n : ℕ) :
    pullFrom sign hash ops peer theirs theirSt maxPerRequest j st caps n =
      drive sign hash ops maxPerRequest j st ((List.range n).map fun i =>
        peerReply peer theirs theirSt
          (pullFrom sign hash ops peer theirs theirSt maxPerRequest j st caps i) (caps i)) := by
  induction n with
  | zero => rfl
  | succ n ih =>
    rw [List.range_succ, List.map_append, List.map_singleton, drive_concat, ← ih]
    rfl

end Closed

section Honest

variable {sign : SignOps} {hash : HashOps} {ops : StoreOps S} {peer : StoreOps T}
variable {mine theirs : Journal} {st : S} {theirSt : T} {holds : S → StoreAddr → Bytes → Prop}
variable {maxPerRequest : UInt64} {requests : List SyncRequest}
variable (peer theirSt holds) in
/-- A stream filled from `a` to `n`: the journal is there and the peer's records are stored. -/
structure Filled (k : StreamKey) (a n : ℕ) (j : Journal) (st : S) : Prop where
  line : ∃ e, position j k = some e ∧ e.received.toNat = n
  kept : ∀ m, a < m → m ≤ n → ∃ r,
    recordStoreGet peer theirSt ⟨k, UInt64.ofNat m⟩ = .ok r ∧
      holds st ⟨k, UInt64.ofNat m⟩ r.bytes

variable (peer theirSt holds mine) in
/-- The first `w` requests filled, and every other stream where it was. -/
structure Upto (requests : List SyncRequest) (w : ℕ) (j : Journal) (st : S) : Prop where
  usable : journalUsable j = true
  filled : ∀ i, i < w → ∀ r, requests[i]? = some r →
    Filled peer theirSt holds r.key (r.fromSeq.toNat - 1)
      (r.fromSeq.toNat - 1 + r.count.toNat) j st
  rest : ∀ k, (∀ i, i < w → ∀ r, requests[i]? = some r → r.key ≠ k) →
    position j k = position mine k

variable (hash peer theirSt holds mine) in
/-- Request `w` under way, `left` of it left from `next` on. -/
structure Midway (requests : List SyncRequest) (w : ℕ) (want : SyncRequest) (s : Taking S) :
    Prop where
  here : requests[w]? = some want
  left : s.left ≠ 0
  sum : s.next.toNat + s.left.toNat = want.fromSeq.toNat + want.count.toNat
  taken : TakenTo hash peer theirSt holds want.key (want.fromSeq.toNat - 1) s
  filled : ∀ i, i < w → ∀ r, requests[i]? = some r →
    Filled peer theirSt holds r.key (r.fromSeq.toNat - 1)
      (r.fromSeq.toNat - 1 + r.count.toNat) s.journal s.store
  rest : ∀ k, (∀ i, i < w + 1 → ∀ r, requests[i]? = some r → r.key ≠ k) →
    position s.journal k = position mine k

/-- What the peer's digest says. -/
theorem Serves.digest (h : Serves sign hash peer theirs theirSt) :
    syncDigest theirs syncMaxPositions =
      theirs.entries.map fun e => ⟨e.key, e.received⟩ := by
  unfold syncDigest
  rw [if_neg (by simp [h.usable]), List.take_of_length_le h.few]

/-- A position the peer claims is one of its entries. -/
theorem Serves.claimed (h : Serves sign hash peer theirs theirSt)
    (ht : t ∈ syncDigest theirs syncMaxPositions) :
    ∃ e ∈ theirs.entries, e.key = t.key ∧ e.received = t.received := by
  rw [h.digest] at ht
  obtain ⟨e, he, rfl⟩ := List.mem_map.1 ht
  exact ⟨e, he, rfl, rfl⟩

theorem Serves.digest_apart (h : Serves sign hash peer theirs theirSt) :
    ((syncDigest theirs syncMaxPositions).map SyncPosition.key).Nodup := by
  rw [h.digest, List.map_map]
  exact h.apart

/-- The last sequence the peer offers of a stream. -/
theorem Serves.last (h : Serves sign hash peer theirs theirSt) {e : JournalEntry}
    (he : e ∈ theirs.entries) : journalNext theirs e.key - 1 = e.received := by
  have hpos := h.apart.position he
  obtain ⟨⟨i, d⟩, hfind, hd⟩ := Option.map_eq_some_iff.1 hpos
  obtain rfl : d = e := hd
  have hbelow := h.below d he
  unfold journalNext
  rw [if_neg (by simp [h.usable]), hfind]
  dsimp only
  rw [if_neg hbelow]
  exact UInt64.add_sub_cancel ..

variable (mine theirs maxPerRequest) in
/-- What a request of the plan asks for. -/
structure Asks (r : SyncRequest) (e t : JournalEntry) : Prop where
  mem : e ∈ mine.entries ∧ e.key = r.key
  theirs : t ∈ theirs.entries ∧ t.key = r.key
  behind : e.received.toNat < t.received.toNat
  first : r.fromSeq.toNat = e.received.toNat + 1
  count : r.count.toNat = min (t.received.toNat - e.received.toNat) maxPerRequest.toNat

theorem toNat_min (a b : UInt64) : (min a b).toNat = min a.toNat b.toNat := by
  show (if a ≤ b then a else b).toNat = _
  split
  · next hle => exact (Nat.min_eq_left (UInt64.le_iff_toNat_le.1 hle)).symm
  · next hlt =>
      have hless := UInt64.lt_iff_toNat_lt.1 (UInt64.not_le.1 hlt)
      exact (Nat.min_eq_right (by omega)).symm

theorem Serves.asks (h : Serves sign hash peer theirs theirSt)
    (hplan : Planned mine.entries (syncDigest theirs syncMaxPositions) maxPerRequest requests)
    (hr : r ∈ requests) : ∃ e t, Asks mine theirs maxPerRequest r e t := by
  obtain ⟨e, he, u, hu, hekey, hukey, hlt, hfrom, hcount⟩ := hplan.ahead r hr
  obtain ⟨t, ht, htkey, htrec⟩ := h.claimed hu
  have hlt' := UInt64.lt_iff_toNat_lt.1 hlt
  have htop := u.received.toNat_lt
  rw [← htrec] at hlt' htop
  refine ⟨e, t, ⟨he, hekey⟩, ⟨ht, htkey.trans hukey⟩, hlt', ?_, ?_⟩
  · rw [hfrom, UInt64.toNat_add]
    exact Nat.mod_eq_of_lt (by show e.received.toNat + 1 < _; omega)
  · have hsub : (u.received - e.received).toNat = u.received.toNat - e.received.toNat :=
      UInt64.toNat_sub_of_le _ _ (UInt64.le_of_lt hlt)
    rw [hcount, toNat_min, hsub, htrec]

/-! ## A range from its first record to its last -/

/-- A stream's request, by its place in the plan. -/
theorem Planned.key_ne {entries : List JournalEntry} {claimed : List SyncPosition}
    (hplan : Planned entries claimed maxPerRequest requests) {i w : ℕ} {r q : SyncRequest}
    (hi : requests[i]? = some r) (hw : requests[w]? = some q) (hne : i ≠ w) : r.key ≠ q.key := by
  intro hkey
  obtain ⟨hlt, rfl⟩ := List.getElem?_eq_some_iff.1 hi
  obtain ⟨hlt', rfl⟩ := List.getElem?_eq_some_iff.1 hw
  have hleft : i < (requests.map SyncRequest.key).length := by rwa [List.length_map]
  have hright : w < (requests.map SyncRequest.key).length := by rwa [List.length_map]
  have hmap : (requests.map SyncRequest.key)[i] = (requests.map SyncRequest.key)[w] := by
    rw [List.getElem_map, List.getElem_map]
    exact hkey
  exact hne ((hplan.apart.getElem_inj_iff).1 hmap)

/-- **A request begins** where the journal is. -/
theorem Upto.midway (hserves : Serves sign hash peer theirs theirSt) (hmax : maxPerRequest ≠ 0)
    (hapart : StreamsApart mine) (hshorter : PrefixOrLonger hash peer theirSt mine theirs)
    (hplan : Planned mine.entries (syncDigest theirs syncMaxPositions) maxPerRequest requests)
    {w : ℕ} {j : Journal} (h : Upto peer mine theirSt holds requests w j st)
    (hr : requests[w]? = some r) (tally : Tally) :
    Midway hash peer mine theirSt holds requests w r ⟨j, st, r.fromSeq, r.count, tally⟩ := by
  obtain ⟨e, t, hask⟩ := hserves.asks hplan (List.mem_of_getElem? hr)
  obtain ⟨he, hekey⟩ := hask.mem
  obtain ⟨ht, htkey⟩ := hask.theirs
  have hbehind := hask.behind
  have hfirst := hask.first
  have hpos : position mine r.key = some e := by
    rw [← hekey]
    exact hapart.position he
  have htpos : position theirs r.key = some t := by
    rw [← htkey]
    exact hserves.apart.position ht
  have hmaxpos : maxPerRequest.toNat ≠ 0 := fun hz => hmax (UInt64.toNat_inj.1 hz)
  refine ⟨hr, fun hz => ?_, rfl, ⟨h.usable, ⟨e, ?_, ?_, fun hhas => ?_⟩, fun n hn hlt => ?_⟩,
    h.filled, fun k hk => h.rest k fun i hi => hk i (Nat.lt_succ_of_lt hi)⟩
  · have hzero : r.count.toNat = 0 := congrArg UInt64.toNat hz
    have hcount := hask.count
    omega
  · rw [← hpos]
    exact h.rest r.key fun i hi q hq => hplan.key_ne hq hr (Nat.ne_of_lt hi)
  · exact hfirst.symm
  · exact hshorter r.key e t hpos htpos (UInt64.le_iff_toNat_le.2 (Nat.le_of_lt hbehind)) hhas
  · have hlt : n < r.fromSeq.toNat := hlt
    omega

/-- **What the peer answers of a range**: its next records, one at least and no more than are
left. -/
theorem Midway.reply (hserves : Serves sign hash peer theirs theirSt)
    (hplan : Planned mine.entries (syncDigest theirs syncMaxPositions) maxPerRequest requests)
    {w : ℕ} {want : SyncRequest} {s : Taking S}
    (h : Midway hash peer mine theirSt holds requests w want s) {cap : ℕ} (hcap : 706 ≤ cap) :
    ∃ recs, exchangeAnswer peer theirs theirSt (recordsQuery want s.next s.left) cap =
        recordsReply recs ∧
      recs.length < 65536 ∧ recs ≠ [] ∧ recs.length ≤ s.left.toNat ∧
      ∀ i r, recs[i]? = some r →
        recordStoreGet peer theirSt ⟨want.key, UInt64.ofNat (s.next.toNat + i)⟩ = .ok r ∧
          HasNext sign hash peer theirSt want.key (s.next.toNat + i - 1) ∧
          s.next.toNat + i < seqMax.toNat := by
  obtain ⟨e, t, hask⟩ := hserves.asks hplan (List.mem_of_getElem? h.here)
  obtain ⟨ht, htkey⟩ := hask.theirs
  have hleft : s.left.toNat ≠ 0 := fun hz => h.left (UInt64.toNat_inj.1 hz)
  have hsum := h.sum
  have hfirst := hask.first
  have hcount := hask.count
  have hbehind := hask.behind
  obtain ⟨d, -, hreceived, -⟩ := h.taken.line
  have hbelow : t.received.toNat < seqMax.toNat := by
    have hlt := t.received.toNat_lt
    have hne : t.received.toNat ≠ seqMax.toNat := fun heq =>
      hserves.below t ht (UInt64.toNat_inj.1 heq)
    have hseq : seqMax.toNat = 18446744073709551615 := rfl
    omega
  have hlast : journalNext theirs want.key - 1 = t.received := by
    rw [← htkey]
    exact hserves.last ht
  have hnext : s.next ≠ 0 := fun hz => by
    rw [hz] at hreceived
    exact absurd hreceived (by simp)
  have hwithin : s.next.toNat ≤ t.received.toNat := by omega
  have hback : s.next.toNat - 1 + 1 = s.next.toNat := by omega
  have hchain : ∀ n, n < t.received.toNat → HasNext sign hash peer theirSt want.key n := by
    intro n hn
    rw [← htkey]
    exact hserves.chain t ht n hn
  obtain ⟨r, id, hget, -⟩ := hchain (s.next.toNat - 1) (by omega)
  rw [hback, UInt64.ofNat_toNat] at hget
  refine ⟨_, exchangeAnswer_records hnext h.left (by omega), ?_, ?_, ?_, fun i q hq => ?_⟩
  · have hlen := @length_recordsFrom _ peer theirSt want.key
      (journalNext theirs want.key - 1) cap (min s.left.toNat 0xffff) s.next 4
    omega
  · rw [hlast]
    exact recordsFrom_ne_nil (by omega) (UInt64.le_iff_toNat_le.2 hwithin) hget (by omega)
  · have hlen := @length_recordsFrom _ peer theirSt want.key
      (journalNext theirs want.key - 1) cap (min s.left.toNat 0xffff) s.next 4
    omega
  · rw [hlast] at hq
    have hseq : seqMax.toNat = 18446744073709551615 := rfl
    obtain ⟨hle, hat⟩ := getElem?_recordsFrom (by omega) hq
    exact ⟨hat, hchain _ (by omega), by omega⟩

/-- **A reply of the range taken:** the range goes on, or is filled. -/
theorem Midway.taken_reply (hkeeps : StoreKeeps ops holds)
    (haccepts : ∀ st x bs, (ops.put st x bs).1 = true)
    (hserves : Serves sign hash peer theirs theirSt)
    (hplan : Planned mine.entries (syncDigest theirs syncMaxPositions) maxPerRequest requests)
    {w : ℕ} {want : SyncRequest} {s : Taking S}
    (h : Midway hash peer mine theirSt holds requests w want s) {cap : ℕ} (hcap : 706 ≤ cap) :
    exchangeAnswer peer theirs theirSt (recordsQuery want s.next s.left) cap ≠ [] ∧
      ∃ s', takeRecords sign hash ops want
          (exchangeAnswer peer theirs theirSt (recordsQuery want s.next s.left) cap) s =
            (if s'.left = 0 then .over .ok else .more, s') ∧
        (s'.left ≠ 0 → Midway hash peer mine theirSt holds requests w want s') ∧
        (s'.left = 0 → Upto peer mine theirSt holds requests (w + 1) s'.journal s'.store) := by
  obtain ⟨recs, hanswer, hfew, hsome, hmany, hrecs⟩ := h.reply hserves hplan hcap
  obtain ⟨s', hnext, hleft, htaken, hsame, htake⟩ :=
    takeRecords_honest hkeeps haccepts rfl h.left hmany h.taken hrecs hfew hsome
  have hsum := h.sum
  have hothers : ∀ i, i < w → ∀ r, requests[i]? = some r →
      Filled peer theirSt holds r.key (r.fromSeq.toNat - 1)
        (r.fromSeq.toNat - 1 + r.count.toNat) s'.journal s'.store := by
    intro i hi r hr
    have hne : want.key ≠ r.key := (hplan.key_ne hr h.here (Nat.ne_of_lt hi)).symm
    obtain ⟨hposSame, hheldSame⟩ := hsame r.key hne
    obtain ⟨⟨e, hpos, hrec⟩, hkept⟩ := h.filled i hi r hr
    refine ⟨⟨e, hposSame.trans hpos, hrec⟩, fun m hm hle => ?_⟩
    obtain ⟨q, hq, hheld⟩ := hkept m hm hle
    exact ⟨q, hq, (hheldSame _ _).2 hheld⟩
  have hrest : ∀ k, (∀ i, i < w + 1 → ∀ r, requests[i]? = some r → r.key ≠ k) →
      position s'.journal k = position mine k := by
    intro k hk
    have hne : want.key ≠ k := hk w (Nat.lt_succ_self w) want h.here
    exact (hsame k hne).1.trans (h.rest k hk)
  rw [hanswer]
  refine ⟨by simp [recordsReply], s', htake, fun hmore => ?_, fun hover => ?_⟩
  · exact ⟨h.here, hmore, by omega, htaken, hothers, hrest⟩
  · have hzero : s'.left.toNat = 0 := congrArg UInt64.toNat hover
    obtain ⟨e, hpos, hreceived, -⟩ := htaken.line
    obtain ⟨a, t, hask⟩ := hserves.asks hplan (List.mem_of_getElem? h.here)
    have hfirst := hask.first
    refine ⟨htaken.usable, fun i hi r hr => ?_, hrest⟩
    by_cases hlast : i = w
    · subst hlast
      obtain rfl := Option.some.inj (h.here.symm.trans hr)
      refine ⟨⟨e, hpos, by omega⟩, fun m hm hle => htaken.kept m hm (by omega)⟩
    · exact hothers i (by omega) r hr

/-! ## The digest read -/

/-- What is read of a digest so far: the first of the positions, and a page for one at most. -/
structure ReadSoFar (claimed : List SyncPosition) (d : Digest) : Prop where
  read : d.theirs = claimed.take d.theirs.length
  pages : d.pages ≤ d.theirs.length

/-- **A page taken:** the digest is read, or more of it is. -/
theorem digestTake_page {claimed : List SyncPosition} {d : Digest} {room : ℕ}
    (hfew : claimed.length ≤ syncMaxPositions) (h : ReadSoFar claimed d) (hroom : 0 < room) :
    ∃ d', ReadSoFar claimed d' ∧
      ((d'.theirs = claimed ∧ digestTake d (digestPage claimed.length d.theirs.length
          ((claimed.drop d.theirs.length).take room)) = (.read, d')) ∨
        (d'.theirs.length < claimed.length ∧ digestTake d (digestPage claimed.length
          d.theirs.length ((claimed.drop d.theirs.length).take room)) = (.more, d'))) := by
  have hmax : syncMaxPositions = 1024 := rfl
  have hn : d.theirs.length ≤ claimed.length := by
    have hlen := congrArg List.length h.read
    rw [List.length_take] at hlen
    omega
  generalize hpage : (claimed.drop d.theirs.length).take room = page
  have hcount : page.length = min room (claimed.length - d.theirs.length) := by
    rw [← hpage, List.length_take, List.length_drop]
  obtain ⟨hmessage, hlen, htotal, hstart, hmany⟩ :=
    @digestPage_head claimed.length d.theirs.length page (by omega) (by omega) (by omega)
  generalize hreply : digestPage claimed.length d.theirs.length page = reply at *
  have hrefuses : digestRefuses d.theirs.length reply = false := by
    have hwrap : (claimed.length + 2 ^ 64 - d.theirs.length) % 2 ^ 64 =
        claimed.length - d.theirs.length := by omega
    unfold digestRefuses
    rw [htotal, hstart, hmany, hwrap]
    exact decide_eq_false (by omega)
  have hfill : digestFill d.theirs reply = claimed.take (d.theirs.length + page.length) := by
    have hback : (List.range page.length).map (positionAt reply) = page := by
      rw [← hreply]
      exact range_map_positionAt _ _ page
    have hwhole : page.take (syncMaxPositions - d.theirs.length) = page :=
      List.take_of_length_le (by omega)
    have hcut : page = (claimed.drop d.theirs.length).take page.length := by
      rw [hcount, ← hpage, ← List.length_drop, List.take_eq_take_min]
    unfold digestFill
    rw [hmany, hback, hwhole, List.take_add]
    exact congrArg₂ _ h.read hcut
  have hlength : (digestFill d.theirs reply).length = d.theirs.length + page.length := by
    rw [hfill, List.length_take]
    omega
  have hread : digestFill d.theirs reply = claimed.take (digestFill d.theirs reply).length := by
    rw [hlength]
    exact hfill
  have hpages := h.pages
  unfold digestTake
  rw [if_neg (by simp [hmessage]; omega), if_neg (by simp [hrefuses]), htotal]
  by_cases hmore : d.theirs.length + page.length < claimed.length
  · refine ⟨⟨digestFill d.theirs reply, claimed.length, d.pages + 1⟩, ⟨hread, ?_⟩,
      Or.inr ⟨?_, ?_⟩⟩
    · show d.pages + 1 ≤ (digestFill d.theirs reply).length
      omega
    · show (digestFill d.theirs reply).length < claimed.length
      omega
    · rw [if_pos (by omega), if_pos (by omega)]
  · refine ⟨⟨digestFill d.theirs reply, claimed.length, d.pages⟩, ⟨hread, ?_⟩, Or.inl ⟨?_, ?_⟩⟩
    · show d.pages ≤ (digestFill d.theirs reply).length
      omega
    · show digestFill d.theirs reply = claimed
      rw [hfill, List.take_of_length_le (by omega)]
    · rw [if_neg (by omega)]

/-! ## The steps -/

/-- The next range of the plan, where there is one. -/
theorem nextWant_some {p : Pulling} (h : p.plan.requests[p.want]? = some r) (hcount : r.count ≠ 0) :
    nextWant p =
      (⟨.ok, some (recordsQuery r r.fromSeq r.count), false⟩,
        { p with next := r.fromSeq, left := r.count }) := by
  obtain ⟨hlt, rfl⟩ := List.getElem?_eq_some_iff.1 h
  unfold nextWant
  rw [List.drop_eq_getElem_cons hlt, nextWantFrom, if_pos hcount]

theorem nextWant_none {p : Pulling} (h : p.plan.requests[p.want]? = none) :
    nextWant p = (⟨.ok, none, true⟩, { p with phase := .done }) := by
  unfold nextWant
  rw [List.drop_of_length_le (List.getElem?_eq_none_iff.1 h)]
  rfl

variable (hash peer mine theirs theirSt holds maxPerRequest st) in
/-- **A pull of an honest peer**: reading the digest, paging a range, or over. -/
inductive Going (run : PullRun S) : Prop
  | digest
      (answer : run.answer =
        ⟨.ok, some (digestQuery run.world.pulling.digest.theirs.length), false⟩)
      (phase : run.world.pulling.phase = .digest)
      (read : ReadSoFar (syncDigest theirs syncMaxPositions) run.world.pulling.digest)
      (max : run.world.pulling.maxPerRequest = maxPerRequest)
      (journal : run.world.journal = mine) (store : run.world.store = st) : Going run
  | records (want : SyncRequest)
      (answer : run.answer =
        ⟨.ok, some (recordsQuery want run.world.pulling.next run.world.pulling.left), false⟩)
      (phase : run.world.pulling.phase = .records)
      (plan : Planned mine.entries (syncDigest theirs syncMaxPositions) maxPerRequest
        run.world.pulling.plan.requests)
      (midway : Midway hash peer mine theirSt holds run.world.pulling.plan.requests
        run.world.pulling.want want ⟨run.world.journal, run.world.store, run.world.pulling.next,
          run.world.pulling.left, run.world.pulling.tally⟩) : Going run
  | ended (answer : run.answer = ⟨.ok, none, true⟩)
      (plan : Planned mine.entries (syncDigest theirs syncMaxPositions) maxPerRequest
        run.world.pulling.plan.requests)
      (upto : Upto peer mine theirSt holds run.world.pulling.plan.requests
        run.world.pulling.plan.requests.length run.world.journal run.world.store) : Going run

/-- **On to the next range**, or over. -/
theorem going_pullWants (hserves : Serves sign hash peer theirs theirSt) (hmax : maxPerRequest ≠ 0)
    (hapart : StreamsApart mine) (hshorter : PrefixOrLonger hash peer theirSt mine theirs)
    {w : PullWorld S} (hphase : w.pulling.phase = .records)
    (hplan : Planned mine.entries (syncDigest theirs syncMaxPositions) maxPerRequest
      w.pulling.plan.requests)
    (hupto : Upto peer mine theirSt holds w.pulling.plan.requests w.pulling.want w.journal w.store)
    (steps : ℕ) :
    Going hash peer mine theirs st theirSt holds maxPerRequest
      ⟨(pullWants w).2, (pullWants w).1, steps⟩ := by
  unfold pullWants
  cases hwant : w.pulling.plan.requests[w.pulling.want]? with
  | none =>
    rw [nextWant_none hwant]
    refine .ended rfl hplan ⟨hupto.usable, fun i hi r hr => ?_, fun k hk => ?_⟩
    · have hle := List.getElem?_eq_none_iff.1 hwant
      exact hupto.filled i (by have hi : i < w.pulling.plan.requests.length := hi; omega) r hr
    · refine hupto.rest k fun i _ r hr => ?_
      exact hk i (List.getElem?_eq_some_iff.1 hr).1 r hr
  | some r =>
    have hmid := hupto.midway hserves hmax hapart hshorter hplan hwant w.pulling.tally
    rw [nextWant_some hwant hmid.left]
    exact .records r rfl hphase hplan hmid

theorem serves_few (hserves : Serves sign hash peer theirs theirSt) :
    (syncDigest theirs syncMaxPositions).length ≤ syncMaxPositions := by
  rw [hserves.digest, List.length_map]
  exact hserves.few

section

variable (hkeeps : StoreKeeps ops holds) (haccepts : ∀ st x bs, (ops.put st x bs).1 = true)
  (hserves : Serves sign hash peer theirs theirSt) (hmax : maxPerRequest ≠ 0)
  (husable : journalUsable mine = true) (hapart : StreamsApart mine)
  (hshorter : PrefixOrLonger hash peer theirSt mine theirs)
include hkeeps haccepts hserves hmax husable hapart hshorter

/-- **Every step of a pull of an honest peer** keeps the account. -/
theorem Going.step {run : PullRun S}
    (h : Going hash peer mine theirs st theirSt holds maxPerRequest run) {cap : ℕ}
    (hcap : 706 ≤ cap) :
    Going hash peer mine theirs st theirSt holds maxPerRequest
      (driveStep sign hash ops run (peerReply peer theirs theirSt run cap)) := by
  cases h with
  | digest answer phase read max journal store =>
    have hgoing : run.going = true := by simp [PullRun.going, answer]
    have hfew := serves_few hserves
    obtain ⟨d, hread, hpage⟩ := digestTake_page hfew read
      (show 0 < (cap - 8) / 44 by omega)
    have hn : run.world.pulling.digest.theirs.length ≤
        (syncDigest theirs syncMaxPositions).length := by
      have hlen := congrArg List.length read.read
      rw [List.length_take] at hlen
      omega
    have hanswer := @exchangeAnswer_digest _ peer theirs theirSt cap _ hn (by omega)
    have hreply : peerReply peer theirs theirSt run cap = some (digestPage
        (syncDigest theirs syncMaxPositions).length run.world.pulling.digest.theirs.length
        (((syncDigest theirs syncMaxPositions).drop
          run.world.pulling.digest.theirs.length).take ((cap - 8) / 44))) := by
      unfold peerReply
      rw [answer]
      dsimp only
      rw [hanswer, if_neg (by simp [digestPage])]
    unfold driveStep pullStep
    rw [if_pos hgoing, hreply, phase]
    dsimp only
    unfold pullDigest
    obtain ⟨hwhole, htake⟩ | ⟨hless, htake⟩ := hpage
    · obtain ⟨plan, hfetch, hplan⟩ := planFetch_planned husable hapart hmax hfew
        hserves.digest_apart
      rw [htake]
      dsimp only
      rw [journal, hwhole, max, hfetch]
      dsimp only
      refine going_pullWants hserves hmax hapart hshorter rfl hplan ⟨?_, fun i hi => ?_,
        fun k _ => ?_⟩ _
      · exact husable
      · exact absurd hi (Nat.not_lt_zero i)
      · rfl
    · rw [htake]
      exact .digest rfl phase hread max journal store
  | records want answer phase plan midway =>
    have hgoing : run.going = true := by simp [PullRun.going, answer]
    obtain ⟨hsome, s', htake, hmore, hover⟩ :=
      midway.taken_reply hkeeps haccepts hserves plan hcap
    have hreply : peerReply peer theirs theirSt run cap = some (exchangeAnswer peer theirs theirSt
        (recordsQuery want run.world.pulling.next run.world.pulling.left) cap) := by
      unfold peerReply
      rw [answer]
      dsimp only
      rw [if_neg hsome]
    unfold driveStep pullStep
    rw [if_pos hgoing, hreply, phase]
    simp only [midway.here]
    unfold pullRecords
    rw [htake]
    by_cases hleft : s'.left = 0
    · rw [if_pos hleft]
      dsimp only
      rw [if_neg (by simp)]
      exact going_pullWants (w := s'.past run.world) hserves hmax hapart hshorter phase plan
        (hover hleft) _
    · rw [if_neg hleft]
      dsimp only
      rw [if_pos hleft]
      exact .records want rfl phase plan (hmore hleft)
  | ended answer plan upto =>
    have hover : run.going = false := by simp [PullRun.going, answer]
    unfold driveStep
    rw [hover, if_neg (by decide)]
    exact .ended answer plan upto

theorem going_pullFrom {caps : ℕ → ℕ} (hcaps : ∀ n, 706 ≤ caps n) (n : ℕ) :
    Going hash peer mine theirs st theirSt holds maxPerRequest
      (pullFrom sign hash ops peer theirs theirSt maxPerRequest mine st caps n) := by
  induction n with
  | zero =>
    unfold pullFrom pullStart pullBegin
    rw [if_neg hmax]
    exact .digest rfl rfl ⟨rfl, Nat.le_refl 0⟩ rfl rfl rfl
  | succ n ih => exact ih.step hkeeps haccepts hserves hmax husable hapart hshorter (hcaps n)

end

/-- What a pull that is over has done to a stream both follow. -/
theorem Upto.done (hserves : Serves sign hash peer theirs theirSt) (hapart : StreamsApart mine)
    (hplan : Planned mine.entries (syncDigest theirs syncMaxPositions) maxPerRequest requests)
    {j : Journal} {now : S}
    (h : Upto peer mine theirSt holds requests requests.length j now) {k : StreamKey}
    {e t : JournalEntry} (he : position mine k = some e) (ht : position theirs k = some t) :
    ∃ d, position j k = some d ∧
      d.received.toNat = max e.received.toNat
        (min t.received.toNat (e.received.toNat + maxPerRequest.toNat)) ∧
      ∀ n, e.received.toNat < n → n ≤ d.received.toNat → ∃ r,
        recordStoreGet peer theirSt ⟨k, UInt64.ofNat n⟩ = .ok r ∧
          holds now ⟨k, UInt64.ofNat n⟩ r.bytes := by
  obtain ⟨hemem, hekey⟩ := mem_of_position he
  obtain ⟨htmem, htkey⟩ := mem_of_position ht
  by_cases hasked : ∃ r ∈ requests, r.key = k
  · obtain ⟨r, hr, hrkey⟩ := hasked
    obtain ⟨a, b, hask⟩ := hserves.asks hplan hr
    have ha : a = e := List.inj_on_of_nodup_map hapart hask.mem.1 hemem
      (hask.mem.2.trans (hrkey.trans hekey.symm))
    have hb : b = t := List.inj_on_of_nodup_map hserves.apart hask.theirs.1 htmem
      (hask.theirs.2.trans (hrkey.trans htkey.symm))
    subst ha hb
    obtain ⟨i, hi⟩ := List.getElem?_of_mem hr
    obtain ⟨⟨d, hpos, hreceived⟩, hkept⟩ :=
      h.filled i (List.getElem?_eq_some_iff.1 hi).1 r hi
    rw [hrkey] at hpos hkept
    have hbehind := hask.behind
    have hfirst := hask.first
    have hcount := hask.count
    refine ⟨d, hpos, by omega, fun n hn hle => hkept n (by omega) (by omega)⟩
  · have hbehind : ¬ e.received.toNat < t.received.toNat := by
      intro hlt
      have hclaim : (⟨t.key, t.received⟩ : SyncPosition) ∈ syncDigest theirs syncMaxPositions := by
        rw [hserves.digest]
        exact List.mem_map.2 ⟨t, htmem, rfl⟩
      obtain ⟨r, hr, hrkey⟩ := hplan.whole e hemem _ hclaim (htkey.trans hekey.symm)
        (UInt64.lt_iff_toNat_lt.2 hlt)
      exact hasked ⟨r, hr, hrkey.trans hekey⟩
    refine ⟨e, ?_, by omega, fun n hn hle => by omega⟩
    rw [h.rest k fun i _ r hr hrkey => hasked ⟨r, List.mem_of_getElem? hr, hrkey⟩]
    exact he

/-- **A pull from an honest peer converges:** it ends and answers OK, and every stream both
follow is then received up to where the peer is or as far as is asked for at once, each of the
peer's records on the way stored. -/
theorem honest_pull (hkeeps : StoreKeeps ops holds)
    (haccepts : ∀ st x bs, (ops.put st x bs).1 = true)
    (hserves : Serves sign hash peer theirs theirSt) (hmax : maxPerRequest ≠ 0)
    (husable : journalUsable mine = true) (hapart : StreamsApart mine)
    (hshorter : PrefixOrLonger hash peer theirSt mine theirs) (st : S) {caps : ℕ → ℕ}
    (hcaps : ∀ n, 706 ≤ caps n) :
    ∃ n, ∃ run, run = pullFrom sign hash ops peer theirs theirSt maxPerRequest mine st caps n ∧
      run.answer.err = .ok ∧ run.answer.done = true ∧
      ∀ k e t, position mine k = some e → position theirs k = some t →
        ∃ d, position run.world.journal k = some d ∧
          d.received.toNat = max e.received.toNat
            (min t.received.toNat (e.received.toNat + maxPerRequest.toNat)) ∧
          ∀ n, e.received.toNat < n → n ≤ d.received.toNat → ∃ r,
            recordStoreGet peer theirSt ⟨k, UInt64.ofNat n⟩ = .ok r ∧
              holds run.world.store ⟨k, UInt64.ofNat n⟩ r.bytes := by
  obtain ⟨n, hover, -⟩ := @exists_not_going _ sign hash ops maxPerRequest mine st fun i =>
    peerReply peer theirs theirSt
      (pullFrom sign hash ops peer theirs theirSt maxPerRequest mine st caps i) (caps i)
  rw [← pullFrom_eq_drive] at hover
  refine ⟨n, _, rfl, ?_⟩
  have hgoing := @going_pullFrom _ _ sign hash ops peer mine theirs st theirSt holds maxPerRequest
    hkeeps haccepts hserves hmax husable hapart hshorter caps hcaps n
  cases hgoing with
  | digest answer => simp [PullRun.going, answer] at hover
  | records want answer => simp [PullRun.going, answer] at hover
  | ended answer plan upto =>
    rw [answer]
    exact ⟨rfl, rfl, fun k e t he ht => upto.done hserves hapart plan he ht⟩

end Honest

/-! ### One record of one stream -/

/-- The record of `firstRecord`. -/
def firstView : RecordView := ⟨firstRecord, by decide +kernel⟩

/-- A peer's journal that has received it, and its store. -/
def receivedOne : Journal := ⟨[{ freshEntry ⟨7, 3⟩ with received := 1, head := 9 }], 1⟩

/-- It is in the store. -/
def heldOne : StoreAddr → Option Bytes := fun x => if x = ⟨⟨7, 3⟩, 1⟩ then some firstRecord else none

theorem heldOne_get : recordStoreGet mapOps heldOne ⟨⟨7, 3⟩, 1⟩ = .ok firstView := by
  have haddr : firstView.addr = ⟨⟨7, 3⟩, 1⟩ := by decide
  have hget : mapOps.get heldOne ⟨⟨7, 3⟩, 1⟩ = .ok firstView.bytes := rfl
  unfold recordStoreGet
  rw [if_neg (by decide), hget]
  simp only [recordOpen_self, haddr, ne_eq, not_true_eq_false, if_false]

theorem serves_one : Serves acceptingSign tailHash mapOps receivedOne heldOne := by
  have hhash : tailHash.hash firstView.bytes = some 9 := by decide +kernel
  have hprev : firstView.prev = 0 := by decide
  refine ⟨rfl, List.nodup_singleton _, by decide, fun e he => ?_, fun e he n hn => ?_⟩
  · rw [List.mem_singleton.1 he]
    decide
  · obtain rfl := List.mem_singleton.1 he
    obtain rfl : n = 0 := Nat.lt_one_iff.1 hn
    refine ⟨firstView, 9, heldOne_get, rfl, hhash, ?_⟩
    rw [hprev]
    rfl

theorem honest_pull_one_record :
    ∃ n, ∃ run, run = pullFrom acceptingSign tailHash mapOps mapOps receivedOne heldOne 16
        oneStream (fun _ => none) (fun _ => 706) n ∧
      run.answer.err = .ok ∧ run.answer.done = true ∧
      ∃ d, position run.world.journal ⟨7, 3⟩ = some d ∧ d.received.toNat = 1 := by
  have hshorter : PrefixOrLonger tailHash mapOps heldOne oneStream receivedOne := by
    intro k e t he _ _ _
    obtain rfl := List.mem_singleton.1 (mem_of_position he).1
    rfl
  have hapart : StreamsApart oneStream := List.nodup_singleton _
  have husable : journalUsable oneStream = true := rfl
  obtain ⟨n, run, hrun, hok, hdone, hall⟩ := honest_pull mapOps_keeps (fun _ _ _ => rfl)
    serves_one (show (16 : UInt64) ≠ 0 by decide) husable hapart hshorter
    (fun _ => none) (fun _ => Nat.le_refl 706)
  obtain ⟨d, hpos, hreceived, -⟩ := hall ⟨7, 3⟩ (freshEntry ⟨7, 3⟩) _ rfl rfl
  exact ⟨n, run, hrun, hok, hdone, d, hpos, hreceived⟩

end Record
end Fuzznet
