/-
# One chain per stream

The journal keeps one id of a stream, the head, and no record, so what it has admitted
is a matter of its history: `admittedLinks` lists what `fzn_journal_admit_chained` took
of one stream over a run.  For a stream followed from the beginning and fed through that
call alone the history is a hash chain from the zero predecessor that ends at the head
(`ChainHeld`), whatever was offered and in whatever order.

Two such histories that share a link share everything before it (`chained_agree`): a
link names its predecessor by an id, and an id names one record.
-/

import Fuzznet.Record.Journal
import Mathlib.Logic.Function.Basic

namespace Fuzznet
namespace Record

open Wire

variable {j : Journal} {c : JournalCall} {k : StreamKey}

/-! ## The chain a stream's history is -/

/-- What `fzn_journal_admit_chained` is told of a record. -/
structure ChainLink where
  seq : UInt64
  prev : RecId
  id : RecId
  deriving DecidableEq, Repr

/-- The link a call admits to the stream, in the journal it meets. -/
def linkAt (k : StreamKey) (j : Journal) (c : JournalCall) : Option ChainLink :=
  match c with
  | .admitChained k' seq prev id =>
    if k' = k ∧ (journalStep j (.admitChained k' seq prev id)).1 = .ok then some ⟨seq, prev, id⟩
    else none
  | _ => none

/-- The links a run admits to the stream, in their order. -/
def admittedLinks (k : StreamKey) : Journal → List JournalCall → List ChainLink
  | _, [] => []
  | j, c :: calls => (linkAt k j c).toList ++ admittedLinks k (journalStep j c).2 calls

/-- The links are a hash chain behind the id `p` at sequence `n`. -/
def Chained : RecId → ℕ → List ChainLink → Prop
  | _, _, [] => True
  | p, n, l :: links => l.prev = p ∧ l.seq.toNat = n + 1 ∧ Chained l.id (n + 1) links

/-- The id a chain ends at, from `p`. -/
def chainEnd (p : RecId) (links : List ChainLink) : RecId :=
  (links.getLast?.map ChainLink.id).getD p

/-- The stream is fed through `fzn_journal_admit_chained` alone, and followed from the
beginning. -/
def FeedsChained (k : StreamKey) : JournalCall → Prop
  | .admitSeq k' _ => k' ≠ k
  | .anchor k' seq => k' = k → seq = 0
  | _ => True

theorem admittedLinks_concat (k : StreamKey) (j : Journal) (calls : List JournalCall)
    (c : JournalCall) : admittedLinks k j (calls ++ [c]) =
      admittedLinks k j calls ++ (linkAt k (journalRun j calls) c).toList := by
  induction calls generalizing j with
  | nil => simp [admittedLinks, journalRun]
  | cons d calls ih =>
    rw [List.cons_append, admittedLinks, admittedLinks, ih, List.append_assoc]
    rfl

variable {links : List ChainLink} {e : JournalEntry} {p : RecId} {l : ChainLink} {seq : UInt64}

theorem chained_concat {n : ℕ} (h : Chained p n links) (hprev : l.prev = chainEnd p links)
    (hseq : l.seq.toNat = n + links.length + 1) : Chained p n (links ++ [l]) := by
  induction links generalizing p n with
  | nil => exact ⟨hprev, by simpa using hseq, trivial⟩
  | cons a links ih =>
    obtain ⟨ha, hn, hrest⟩ := h
    refine ⟨ha, hn, ih hrest ?_ ?_⟩
    · rw [hprev]
      unfold chainEnd
      cases links with
      | nil => rfl
      | cons b links => rw [List.getLast?_cons_cons]; simp [List.getLast?_cons]
    · rw [hseq, List.length_cons]
      omega

/-- What the history of a stream is to its position: a chain that ends at the head, as
long as the stream is received. -/
structure ChainHeld (k : StreamKey) (j : Journal) (links : List ChainLink) : Prop where
  chained : Chained 0 0 links
  unfollowed : position j k = none → links = []
  followed : ∀ e, position j k = some e →
    e.hasHead = true ∧ e.head = chainEnd 0 links ∧ e.received.toNat = links.length

/-- A stream's position that keeps its head and its length keeps its history. -/
theorem ChainHeld.same (h : ChainHeld k j links) {e e' : JournalEntry} {j' : Journal}
    (he : position j k = some e) (he' : position j' k = some e')
    (hhead : e'.hasHead = e.hasHead ∧ e'.head = e.head ∧ e'.received = e.received) :
    ChainHeld k j' links := by
  refine ⟨h.chained, fun hnone => absurd (he'.symm.trans hnone) (by simp), fun d hd => ?_⟩
  obtain rfl := Option.some.inj (he'.symm.trans hd)
  obtain ⟨h1, h2, h3⟩ := hhead
  rw [h1, h2, h3]
  exact h.followed e he

/-- An admitted sequence is the successor of what was received. -/
theorem admitEntry_ok (h : (admitEntry e seq).1 = .ok) :
    seq = e.received + 1 ∧ seq.toNat = e.received.toNat + 1 := by
  unfold admitEntry at h
  split_ifs at h with hdup hgap
  have hlt : e.received.toNat < seq.toNat := UInt64.lt_iff_toNat_lt.1 (UInt64.not_le.1 hdup)
  have hle : seq.toNat ≤ (e.received + 1).toNat := UInt64.le_iff_toNat_le.1 (UInt64.not_lt.1 hgap)
  have hadd : (e.received + 1).toNat ≤ e.received.toNat + 1 := by
    rw [UInt64.toNat_add]
    exact Nat.mod_le _ _
  have hseq : seq.toNat = e.received.toNat + 1 := by omega
  refine ⟨UInt64.toNat_inj.1 ?_, hseq⟩
  omega

/-- A chained record that is admitted names the head held. -/
theorem chainEntry_prev {prev id : RecId} (h : (chainEntry e seq prev id).1 = .ok)
    (hhead : e.hasHead = true) (hstep : (admitEntry e seq).1 = .ok) : prev = e.head := by
  by_contra hne
  unfold chainEntry at h
  rw [if_pos (c := seq = e.received + 1 ∧ e.hasHead = true ∧ e.head ≠ prev)
    ⟨(admitEntry_ok hstep).1, hhead, fun heq => hne heq.symm⟩] at h
  split_ifs at h

theorem position_wrote {i : ℕ} {r : JournalErr × JournalEntry}
    (hfind : journalFind j k = some (i, e)) (hkey : r.2.key = e.key) :
    position j k = some e ∧ position (writeEntry j i r).2 k = some r.2 := by
  obtain ⟨-, hk⟩ := journalFind_some hfind
  have hset : journalFind (writeEntry j i r).2 k = some (i, r.2) :=
    Lib.lastRow_set_self hfind (hkey.trans hk)
  unfold position
  rw [hfind, hset]
  exact ⟨rfl, rfl⟩

/-- A chained record that is not admitted moves nothing but the mark of a fork. -/
theorem chainEntry_not_ok {prev id : RecId} (h : (chainEntry e seq prev id).1 ≠ .ok) :
    (chainEntry e seq prev id).2.hasHead = e.hasHead ∧ (chainEntry e seq prev id).2.head = e.head ∧
      (chainEntry e seq prev id).2.received = e.received := by
  rcases chainEntry_cases e seq prev id with hfork | ⟨hne, heq⟩ | ⟨-, heq⟩
  · rw [hfork]
    exact ⟨rfl, rfl, rfl⟩
  · rw [heq]
    unfold admitEntry at hne ⊢
    split_ifs at hne ⊢
    · exact ⟨rfl, rfl, rfl⟩
    · exact ⟨rfl, rfl, rfl⟩
    · exact absurd rfl hne
  · exact absurd (by rw [heq]) h

/-- A chained record that is admitted is the next one, names the head held, and is the head
from then on. -/
theorem chainEntry_ok {prev id : RecId} (h : (chainEntry e seq prev id).1 = .ok) :
    chainEntry e seq prev id = (.ok, { e with received := seq, head := id, hasHead := true }) ∧
      seq.toNat = e.received.toNat + 1 ∧ (e.hasHead = true → prev = e.head) := by
  rcases chainEntry_cases e seq prev id with hfork | ⟨hne, heq⟩ | ⟨hok, heq⟩
  · rw [hfork] at h
    cases h
  · rw [heq] at h
    exact absurd h hne
  · exact ⟨heq, (admitEntry_ok hok).2, fun hhead => chainEntry_prev h hhead hok⟩

/-- Another stream's call: neither the position nor the history moves. -/
theorem ChainHeld.other (h : ChainHeld k j links) (hk : c.key ≠ k) :
    ChainHeld k (journalStep j c).2 (links ++ (linkAt k j c).toList) := by
  have hlink : linkAt k j c = none := by
    cases c with
    | admitChained k' seq prev id => exact if_neg fun hc => hk hc.1
    | _ => rfl
  rw [hlink, Option.toList_none, List.append_nil]
  have hpos : position (journalStep j c).2 k = position j k := position_journalStep_ne hk
  exact ⟨h.chained, fun hn => h.unfollowed (hpos ▸ hn), fun e he => h.followed e (hpos ▸ he)⟩

/-- A stream followed from the beginning has no history yet. -/
theorem ChainHeld.opened (h : ChainHeld k j links) (hnone : journalFind j k = none) :
    ChainHeld k { j with entries := j.entries ++ [openedEntry k 0] } links := by
  have hpos : position j k = none := by
    unfold position
    rw [hnone]
    rfl
  have hfind : journalFind { j with entries := j.entries ++ [openedEntry k 0] } k =
      some (j.entries.length, freshEntry k) := Lib.lastRow_concat_self rfl
  rw [h.unfollowed hpos]
  refine ⟨trivial, fun _ => rfl, fun e he => ?_⟩
  unfold position at he
  rw [hfind] at he
  obtain rfl := Option.some.inj he
  exact ⟨rfl, rfl, rfl⟩

/-- **A record of the stream**: admitted it is the chain's next link, and else the chain is
as it was. -/
theorem ChainHeld.link (h : ChainHeld k j links) {i : ℕ} (hfind : journalFind j k = some (i, e))
    (seq : UInt64) (prev id : RecId) :
    ChainHeld k (writeEntry j i (chainEntry e seq prev id)).2 (links ++
      (if (chainEntry e seq prev id).1 = .ok then some ⟨seq, prev, id⟩ else none).toList) := by
  obtain ⟨hpos, hpos'⟩ := position_wrote hfind (advances_chainEntry e seq prev id).key
  by_cases hok : (chainEntry e seq prev id).1 = .ok
  swap
  · rw [if_neg hok, Option.toList_none, List.append_nil]
    exact h.same hpos hpos' (chainEntry_not_ok hok)
  obtain ⟨hhead, hend, hlen⟩ := h.followed e hpos
  obtain ⟨heq, hseq, hprev⟩ := chainEntry_ok hok
  rw [if_pos hok, Option.toList_some]
  have hwrote : position (writeEntry j i (chainEntry e seq prev id)).2 k =
      some { e with received := seq, head := id, hasHead := true } := by
    rw [hpos', heq]
  refine ⟨chained_concat h.chained ((hprev hhead).trans hend) (by simp only; omega),
    fun hn => absurd (hwrote.symm.trans hn) (by simp), fun d hd => ?_⟩
  obtain rfl := Option.some.inj (hwrote.symm.trans hd)
  refine ⟨rfl, by simp [chainEnd], ?_⟩
  rw [List.length_append, List.length_singleton, ← hlen]
  exact hseq

/-- **One call keeps the history a chain that ends at the head.** -/
theorem ChainHeld.step (h : ChainHeld k j links) (hfeed : FeedsChained k c) :
    ChainHeld k (journalStep j c).2 (links ++ (linkAt k j c).toList) := by
  by_cases hk : c.key = k
  swap
  · exact h.other hk
  subst hk
  have hcase := journalStep_cases j c
  generalize hr : journalStep j c = r at hcase
  cases hcase with
  | refused hne =>
    have hlink : linkAt c.key j c = none := by
      cases c with
      | admitChained k' seq prev id => exact if_neg fun hc => hne (by rw [hr] at hc; exact hc.2)
      | _ => rfl
    rw [hlink, Option.toList_none, List.append_nil]
    exact h
  | @opened seq hc hnone =>
    have hlink : linkAt c.key j c = none := by
      rw [hc]
      rfl
    have hzero : seq = 0 := by
      rw [hc] at hfeed
      exact hfeed rfl
    rw [hlink, Option.toList_none, List.append_nil, hzero]
    exact h.opened hnone
  | @wrote i e hfind =>
    obtain ⟨hpos, hpos'⟩ := position_wrote hfind (advances_onEntry c e).key
    cases c with
    | admitSeq k' seq => exact absurd rfl hfeed
    | anchor k' seq =>
      obtain rfl : seq = 0 := hfeed rfl
      show ChainHeld k' _ (links ++ [])
      rw [List.append_nil]
      refine h.same hpos hpos' ?_
      show (anchorEntry e 0).2.hasHead = _ ∧ (anchorEntry e 0).2.head = _ ∧
        (anchorEntry e 0).2.received = _
      unfold anchorEntry
      rw [if_pos UInt64.zero_le]
      exact ⟨rfl, rfl, rfl⟩
    | confirm k' seq =>
      show ChainHeld k' _ (links ++ [])
      rw [List.append_nil]
      refine h.same hpos hpos' ?_
      show (confirmEntry e seq).2.hasHead = _ ∧ (confirmEntry e seq).2.head = _ ∧
        (confirmEntry e seq).2.received = _
      unfold confirmEntry
      split_ifs
      · exact ⟨rfl, rfl, rfl⟩
      · exact ⟨rfl, rfl, rfl⟩
      · exact ⟨rfl, rfl, rfl⟩
    | admitChained k' seq prev id =>
      have hlink : linkAt k' j (.admitChained k' seq prev id) =
          if (chainEntry e seq prev id).1 = .ok then some ⟨seq, prev, id⟩ else none := by
        show (if k' = k' ∧ (journalStep j (.admitChained k' seq prev id)).1 = .ok then _
          else _) = _
        rw [hr]
        simp [writeEntry, JournalCall.onEntry]
      show ChainHeld k' (writeEntry j i (chainEntry e seq prev id)).2
        (links ++ (linkAt k' j (.admitChained k' seq prev id)).toList)
      rw [hlink]
      exact h.link hfind seq prev id

/-- **The history of a stream followed from the beginning is one chain.** -/
theorem chainHeld_run {capacity : ℕ} (hinit : journalInit capacity = .ok j)
    {calls : List JournalCall} (hfeed : ∀ c ∈ calls, FeedsChained k c) :
    ChainHeld k (journalRun j calls) (admittedLinks k j calls) := by
  refine Lib.prefix_induction
    (P := fun pre => ChainHeld k (journalRun j pre) (admittedLinks k j pre)) ?_
    fun pre c hle ih => ?_
  · rw [journalInit_ok hinit]
    exact ⟨trivial, fun _ => rfl, fun e he => absurd he (by simp [position, journalFind,
      journalRun, Lib.lastRow])⟩
  · have hrun : journalRun j (pre ++ [c]) = (journalStep (journalRun j pre) c).2 := by
      unfold journalRun
      rw [List.foldl_append]
      rfl
    rw [hrun, admittedLinks_concat]
    exact ih.step (hfeed c (hle.subset (by simp)))

/-! ## Two histories -/

theorem chained_seq {n i : ℕ} (h : Chained p n links) (hi : links[i]? = some l) :
    l.seq.toNat = n + i + 1 := by
  induction links generalizing p n i with
  | nil => exact absurd hi (by simp)
  | cons a links ih =>
    obtain ⟨-, hn, hrest⟩ := h
    cases i with
    | zero =>
      obtain rfl : a = l := by simpa using hi
      omega
    | succ i =>
      have := ih hrest (by simpa using hi)
      omega

theorem chained_prev {n i : ℕ} {l m : ChainLink} (h : Chained p n links) (hi : links[i]? = some l)
    (hm : links[i + 1]? = some m) : m.prev = l.id := by
  induction links generalizing p n i with
  | nil => exact absurd hi (by simp)
  | cons a links ih =>
    obtain ⟨-, -, hrest⟩ := h
    cases i with
    | zero =>
      obtain rfl : a = l := by simpa using hi
      cases links with
      | nil => exact absurd hm (by simp)
      | cons b links =>
        obtain rfl : b = m := by simpa using hm
        exact hrest.1
    | succ i => exact ih hrest (by simpa using hi) (by simpa using hm)

/-- **Two chains that meet at one position are one up to it**, where an id names one
link: the predecessors named are ids again. -/
theorem chained_agree {p q : RecId} {n m : ℕ} {as bs : List ChainLink} (ha : Chained p n as)
    (hb : Chained q m bs) (hid : ∀ a ∈ as, ∀ b ∈ bs, a.id = b.id → a = b) {i : ℕ}
    {a b : ChainLink} (hai : as[i]? = some a) (hbi : bs[i]? = some b) (hab : a.id = b.id) :
    as.take (i + 1) = bs.take (i + 1) := by
  induction i generalizing a b with
  | zero =>
    obtain rfl := hid a (List.mem_of_getElem? hai) b (List.mem_of_getElem? hbi) hab
    rw [List.take_add_one, List.take_add_one, hai, hbi, List.take_zero, List.take_zero]
  | succ i ih =>
    obtain rfl := hid a (List.mem_of_getElem? hai) b (List.mem_of_getElem? hbi) hab
    have hlt : i < as.length := by
      have := (List.getElem?_eq_some_iff.1 hai).1
      omega
    have hlt' : i < bs.length := by
      have := (List.getElem?_eq_some_iff.1 hbi).1
      omega
    have hx := List.getElem?_eq_getElem hlt
    have hy := List.getElem?_eq_getElem hlt'
    have hxy : as[i].id = bs[i].id := by
      rw [← chained_prev ha hx hai, chained_prev hb hy hbi]
    have hsplit : ∀ l : List ChainLink, l[i + 1]? = some a →
        l.take (i + 1 + 1) = l.take (i + 1) ++ [a] := by
      intro l hl
      rw [List.take_add_one, hl]
      rfl
    rw [hsplit as hai, hsplit bs hbi, ih hx hy hxy]

/-- A link admitted was offered. -/
theorem mem_admittedLinks {calls : List JournalCall} (h : l ∈ admittedLinks k j calls) :
    .admitChained k l.seq l.prev l.id ∈ calls := by
  induction calls generalizing j with
  | nil => exact absurd h (by simp [admittedLinks])
  | cons c calls ih =>
    rw [admittedLinks, List.mem_append, Option.mem_toList] at h
    rcases h with h | h
    · cases c with
      | admitChained k' seq prev id =>
        rw [linkAt, Option.ite_none_right_eq_some] at h
        obtain ⟨⟨rfl, -⟩, hl⟩ := h
        rw [← Option.some.inj hl]
        exact List.mem_cons_self
      | _ => exact absurd h (by simp [linkAt])
    · exact List.mem_cons_of_mem _ (ih h)

/-- The links up to a sequence are those at the positions up to it. -/
theorem mem_iff_mem_take {n : ℕ} (h : Chained p 0 links) (hl : l.seq.toNat ≤ n + 1) :
    l ∈ links ↔ l ∈ links.take (n + 1) := by
  refine ⟨fun hmem => ?_, List.mem_of_mem_take⟩
  obtain ⟨i, hi⟩ := List.mem_iff_getElem?.1 hmem
  have hseq := chained_seq h hi
  refine List.mem_iff_getElem?.2 ⟨i, ?_⟩
  rw [List.getElem?_take, if_pos (by omega), hi]

/-- A record admitted to the stream by a run. -/
def AdmitsRecord {Rec : Type*} (link : Rec → ChainLink) (k : StreamKey) (j : Journal)
    (calls : List JournalCall) (r : Rec) : Prop :=
  link r ∈ admittedLinks k j calls

/-- **One chain per stream.**  A record has a sequence, a predecessor and an id that
names it alone.  Two journals follow a stream from the beginning and are fed its records
through `fzn_journal_admit_chained` alone, in any order, with anything offered twice or
forged, and with any calls about other streams between.  The links each admits are one
hash chain from the zero predecessor, as long as the stream is received.  If both admit
one id at one sequence, they admit the same records up to it; and once they admit
different records at a sequence, no record behind it is admitted by both.  In every
reachable state of every run, no call takes a position back, and nothing is applied
beyond what was received. -/
theorem one_chain_per_stream {Rec : Type*} (link : Rec → ChainLink)
    (hid : Function.Injective fun r => (link r).id) (k : StreamKey) {capA capB : ℕ}
    {a b : Journal} (ha : journalInit capA = .ok a) (hb : journalInit capB = .ok b)
    (callsA callsB : List JournalCall) (hfeedA : ∀ c ∈ callsA, FeedsChained k c)
    (hfeedB : ∀ c ∈ callsB, FeedsChained k c)
    (hrecA : ∀ seq prev id, .admitChained k seq prev id ∈ callsA → ∃ r, link r = ⟨seq, prev, id⟩)
    (hrecB : ∀ seq prev id, .admitChained k seq prev id ∈ callsB → ∃ r, link r = ⟨seq, prev, id⟩) :
    (Chained 0 0 (admittedLinks k a callsA) ∧
        (position (journalRun a callsA) k = none → admittedLinks k a callsA = []) ∧
        ∀ e, position (journalRun a callsA) k = some e →
          e.received.toNat = (admittedLinks k a callsA).length) ∧
      (∀ r r', AdmitsRecord link k a callsA r → AdmitsRecord link k b callsB r' →
        (link r).id = (link r').id → (link r).seq = (link r').seq →
        ∀ q, (link q).seq ≤ (link r).seq →
          (AdmitsRecord link k a callsA q ↔ AdmitsRecord link k b callsB q)) ∧
      (∀ q q', AdmitsRecord link k a callsA q → AdmitsRecord link k b callsB q' →
        (link q).seq = (link q').seq → q ≠ q' →
        ∀ r, (link q).seq < (link r).seq →
          ¬(AdmitsRecord link k a callsA r ∧ AdmitsRecord link k b callsB r)) ∧
      ∀ calls c,
        (∀ (i : ℕ) (e : JournalEntry), (journalRun a calls).entries[i]? = some e →
          ∃ e' : JournalEntry, (journalStep (journalRun a calls) c).2.entries[i]? = some e' ∧
            e'.key = e.key ∧ e.received ≤ e'.received) ∧
        ∀ e ∈ (journalRun a calls).entries, e.applied ≤ e.received := by
  have hA := chainHeld_run ha hfeedA
  have hB := chainHeld_run hb hfeedB
  -- An id names one link, since it names one record.
  have hlinks : ∀ x ∈ admittedLinks k a callsA, ∀ y ∈ admittedLinks k b callsB,
      x.id = y.id → x = y := by
    intro x hx y hy hxy
    obtain ⟨r, hr⟩ := hrecA _ _ _ (mem_admittedLinks hx)
    obtain ⟨r', hr'⟩ := hrecB _ _ _ (mem_admittedLinks hy)
    have hrr : r = r' := hid (show (link r).id = (link r').id by rw [hr, hr']; exact hxy)
    exact hr.symm.trans (hrr ▸ hr')
  have hagree : ∀ r r', AdmitsRecord link k a callsA r → AdmitsRecord link k b callsB r' →
      (link r).id = (link r').id → (link r).seq = (link r').seq →
      ∀ q, (link q).seq ≤ (link r).seq →
        (AdmitsRecord link k a callsA q ↔ AdmitsRecord link k b callsB q) := by
    intro r r' hr hr' hrid hrseq q hq
    obtain ⟨n, hn⟩ := List.mem_iff_getElem?.1 hr
    obtain ⟨m, hm⟩ := List.mem_iff_getElem?.1 hr'
    have hnseq := chained_seq hA.chained hn
    have hmseq := chained_seq hB.chained hm
    obtain rfl : n = m := by
      rw [hrseq] at hnseq
      omega
    have htake := chained_agree hA.chained hB.chained hlinks hn hm hrid
    have hqn : (link q).seq.toNat ≤ n + 1 := by
      have := UInt64.le_iff_toNat_le.1 hq
      omega
    rw [AdmitsRecord, AdmitsRecord, mem_iff_mem_take hA.chained hqn,
      mem_iff_mem_take hB.chained hqn, htake]
  refine ⟨⟨hA.chained, hA.unfollowed, fun e he => (hA.followed e he).2.2⟩, hagree,
    fun q q' hq hq' hseq hne r hlt hboth => ?_, fun calls c => ⟨fun i e hi => ?_, ?_⟩⟩
  · have hshared := (hagree r r hboth.1 hboth.2 rfl rfl q (UInt64.le_of_lt hlt)).1 hq
    obtain ⟨n, hn⟩ := List.mem_iff_getElem?.1 hshared
    obtain ⟨m, hm⟩ := List.mem_iff_getElem?.1 hq'
    have hnseq := chained_seq hB.chained hn
    have hmseq := chained_seq hB.chained hm
    obtain rfl : n = m := by
      rw [hseq] at hnseq
      omega
    have hlink : link q = link q' := Option.some.inj (hn.symm.trans hm)
    exact hne (hid (congrArg ChainLink.id hlink))
  · obtain ⟨e', he', hadv⟩ := advances_journalStep (c := c) hi
    exact ⟨e', he', hadv.key, hadv.received⟩
  · exact appliedReceived_run ha calls

/-- A record of a chain without branches: its id is its sequence, and it names the id
before. -/
def plainLink (n : Fin 4) : ChainLink :=
  ⟨UInt64.ofNat (n.val + 1), BitVec.ofNat 256 n.val, BitVec.ofNat 256 (n.val + 1)⟩

/-- One journal is offered the records in order, the other with one ahead and one twice. -/
theorem one_chain_per_stream_plain :
    admittedLinks ⟨1, 5⟩ ⟨[], 1⟩ [.anchor ⟨1, 5⟩ 0, .admitChained ⟨1, 5⟩ 1 0 1,
        .admitChained ⟨1, 5⟩ 2 1 2] = [plainLink 0, plainLink 1] ∧
      ∀ q, (plainLink q).seq ≤ 2 →
        (AdmitsRecord plainLink ⟨1, 5⟩ ⟨[], 1⟩ [.anchor ⟨1, 5⟩ 0, .admitChained ⟨1, 5⟩ 1 0 1,
            .admitChained ⟨1, 5⟩ 2 1 2] q ↔
          AdmitsRecord plainLink ⟨1, 5⟩ ⟨[], 2⟩ [.anchor ⟨1, 5⟩ 0, .admitChained ⟨1, 5⟩ 2 1 2,
            .admitChained ⟨1, 5⟩ 1 0 1, .admitChained ⟨1, 5⟩ 1 0 1, .admitChained ⟨1, 5⟩ 2 1 2]
            q) := by
  have hrec : ∀ n : Fin 2, ∃ r, plainLink r =
      ⟨UInt64.ofNat (n.val + 1), BitVec.ofNat 256 n.val, BitVec.ofNat 256 (n.val + 1)⟩ :=
    fun n => ⟨⟨n.val, by omega⟩, rfl⟩
  refine ⟨by decide, (@one_chain_per_stream _ plainLink ?_ ⟨1, 5⟩ 1 2 ⟨[], 1⟩ ⟨[], 2⟩ rfl rfl
    _ _ ?_ ?_ ?_ ?_).2.1 1 1 ?_ ?_ rfl rfl⟩
  · have hne : ∀ r r', (plainLink r).id = (plainLink r').id → r = r' := by decide
    exact fun r r' h => hne r r' h
  · simp [FeedsChained]
  · simp [FeedsChained]
  · intro seq prev id h
    simp only [List.mem_cons, reduceCtorEq, JournalCall.admitChained.injEq, true_and, false_or,
      List.not_mem_nil, or_false] at h
    rcases h with ⟨rfl, rfl, rfl⟩ | ⟨rfl, rfl, rfl⟩
    · exact hrec 0
    · exact hrec 1
  · intro seq prev id h
    simp only [List.mem_cons, reduceCtorEq, JournalCall.admitChained.injEq, true_and, false_or,
      List.not_mem_nil, or_false] at h
    rcases h with ⟨rfl, rfl, rfl⟩ | ⟨rfl, rfl, rfl⟩ | ⟨rfl, rfl, rfl⟩ | ⟨rfl, rfl, rfl⟩
    · exact hrec 1
    · exact hrec 0
    · exact hrec 0
    · exact hrec 1
  · show plainLink 1 ∈ _
    decide
  · show plainLink 1 ∈ _
    decide

end Record
end Fuzznet
