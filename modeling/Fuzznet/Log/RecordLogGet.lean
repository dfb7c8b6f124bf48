/-
# A loss told from a wait

`fzn_log_get` of `log/log.c`.  A record that is not held has been received and evicted (GONE),
or is still to come (ABSENT), and the line between them is the journal's position of the
stream.  A run follows a journal and a log side by side, and keeps what was admitted, what was
anchored and what was appended, in order.

The position is the highest sequence that was admitted or anchored (`Positioned`), so GONE is
the answer for what is at or below one of those and not held (`recordLogGet_gone_iff`).  Where
no anchor skips a sequence everything up to the position was admitted (`Contiguous`), and where
what is admitted is appended, GONE is what was evicted and ABSENT what was never admitted.
-/

import Fuzznet.Log.RecordLog
import Fuzznet.Record.Pull
import Fuzznet.State.SetOfRecords

namespace Fuzznet
namespace Log

open Wire Lib Record

/-- `fzn_log_get`, its answer and the entry. -/
def recordLogGet (l : RecordLog) (j : Journal) (k : StreamKey) (seq : UInt64) :
    RecordLogErr × Option RecordLogEntry :=
  if l.usable = false ∨ journalUsable j = false ∨ seq = 0 then (.malformed, none)
  else match l.find k seq with
    | some p => (.ok, some p.2)
    | none => if seq < journalNext j k then (.gone, none) else (.absent, none)

/-! ## A journal and a log side by side -/

/-- A call on either. -/
inductive FollowCall
  | journal (c : JournalCall)
  | append (r : RecordView)

/-- The journal and the log, and what was taken by them. -/
structure Following where
  journal : Journal
  log : RecordLog
  admitted : List (StreamKey × UInt64)
  anchored : List (StreamKey × UInt64)
  appended : List RecordView

/-- The sequence a call admits. -/
def admits : JournalCall → Option (StreamKey × UInt64)
  | .admitSeq k seq => some (k, seq)
  | .admitChained k seq _ _ => some (k, seq)
  | _ => none

/-- The sequence a call anchors at. -/
def anchors : JournalCall → Option (StreamKey × UInt64)
  | .anchor k seq => some (k, seq)
  | _ => none

/-- One call. -/
def followStep (s : Following) : FollowCall → Following
  | .journal c =>
    if (journalStep s.journal c).1 = .ok then
      { s with
        journal := (journalStep s.journal c).2
        admitted := s.admitted ++ (admits c).toList
        anchored := s.anchored ++ (anchors c).toList }
    else { s with journal := (journalStep s.journal c).2 }
  | .append r =>
    if (recordLogAppend s.log r).1 = .ok then
      { s with
        log := (recordLogAppend s.log r).2
        appended := s.appended ++ [r] }
    else { s with log := (recordLogAppend s.log r).2 }

/-- The calls, from a journal and a log just made. -/
def followRun (j : Journal) (l : RecordLog) (calls : List FollowCall) : Following :=
  calls.foldl followStep ⟨j, l, [], [], []⟩

/-! ## The position -/

section Position

variable {j : Journal} {c : JournalCall} {k : StreamKey} {e : JournalEntry} {s : Following}
  {seq : UInt64}

/-- **What a call does to the position**: one that is taken moves it up to its sequence, an
admission by one, and any other call leaves it. -/
inductive Moved (c : JournalCall) (e : JournalEntry) : JournalErr × JournalEntry → Prop
  | admitted {err : JournalErr} {e' : JournalEntry} {k : StreamKey} {seq : UInt64}
      (hc : admits c = some (k, seq)) (hnext : seq.toNat = e.received.toNat + 1)
      (hseq : e'.received = seq) (hok : err = .ok) : Moved c e (err, e')
  | anchored {err : JournalErr} {e' : JournalEntry} {k : StreamKey} {seq : UInt64}
      (hc : anchors c = some (k, seq)) (hup : e.received < seq) (hseq : e'.received = seq)
      (hok : err = .ok) : Moved c e (err, e')
  | stayed {err : JournalErr} {e' : JournalEntry} (hseq : e'.received = e.received)
      (hnot : err = .ok → admits c = none ∧ anchors c = none) : Moved c e (err, e')

theorem admitEntry_moved (e : JournalEntry) (seq : UInt64) :
    ((admitEntry e seq).1 = .ok ∧ seq.toNat = e.received.toNat + 1 ∧
        (admitEntry e seq).2.received = seq) ∨
      ((admitEntry e seq).1 ≠ .ok ∧ (admitEntry e seq).2.received = e.received) := by
  unfold admitEntry
  split_ifs with hdup hgap
  · exact Or.inr ⟨by simp, rfl⟩
  · exact Or.inr ⟨by simp, rfl⟩
  · refine Or.inl ⟨rfl, ?_, rfl⟩
    have hmax := e.received.toNat_lt
    rw [UInt64.le_iff_toNat_le] at hdup
    rw [gt_iff_lt, UInt64.lt_iff_toNat_lt, UInt64.toNat_add, UInt64.toNat_one] at hgap
    have hseq := seq.toNat_lt
    omega

theorem onEntry_moved (c : JournalCall) (e : JournalEntry) : Moved c e (c.onEntry e) := by
  cases c with
  | admitSeq k seq =>
    rcases admitEntry_moved e seq with ⟨hok, hnext, hseq⟩ | ⟨hne, hsame⟩
    · exact .admitted rfl hnext hseq hok
    · exact .stayed hsame fun hok => absurd hok hne
  | admitChained k seq prev id =>
    show Moved _ e (chainEntry e seq prev id)
    rcases chainEntry_cases e seq prev id with heq | ⟨hne, heq⟩ | ⟨hok, heq⟩
    · rw [heq]
      exact .stayed rfl fun h => (by cases h)
    · rcases admitEntry_moved e seq with ⟨hok, -, -⟩ | ⟨-, hsame⟩
      · exact absurd hok hne
      · rw [heq]
        exact .stayed hsame fun hok => absurd hok hne
    · rcases admitEntry_moved e seq with ⟨-, hnext, -⟩ | ⟨hne, -⟩
      · rw [heq]
        exact .admitted rfl hnext rfl rfl
      · exact absurd hok hne
  | anchor k seq =>
    show Moved _ e (anchorEntry e seq)
    unfold anchorEntry
    split_ifs with hdup
    · exact .stayed rfl fun h => (by cases h)
    · exact .anchored rfl (UInt64.not_le.1 hdup) rfl rfl
  | confirm k seq =>
    show Moved _ e (confirmEntry e seq)
    unfold confirmEntry
    split_ifs
    · exact .stayed rfl fun h => (by cases h)
    · exact .stayed rfl fun h => (by cases h)
    · exact .stayed rfl fun _ => ⟨rfl, rfl⟩

/-- The position is the highest sequence admitted or anchored. -/
structure Positioned (s : Following) : Prop where
  room : s.journal.entries.length ≤ s.journal.capacity
  unknown : ∀ k, position s.journal k = none →
    ∀ seq, (k, seq) ∉ s.admitted ∧ (k, seq) ∉ s.anchored
  upper : ∀ k e, position s.journal k = some e →
    ∀ seq, (k, seq) ∈ s.admitted ∨ (k, seq) ∈ s.anchored → seq ≤ e.received
  reached : ∀ k e, position s.journal k = some e → e.received ≠ 0 →
    (k, e.received) ∈ s.admitted ∨ (k, e.received) ∈ s.anchored
  /-- Every sequence up to the position was admitted, unless an anchor skipped some. -/
  contiguous : (∀ p ∈ s.anchored, p.2 = 0) → ∀ k e, position s.journal k = some e →
    ∀ seq, seq ≠ 0 → seq ≤ e.received → (k, seq) ∈ s.admitted

/-- A stream is opened where there is room for it. -/
theorem room_of_anchor_ok (hfind : journalFind j k = none)
    (hok : (journalAnchor j k seq).1 = .ok) : j.entries.length < j.capacity := by
  by_contra hfull
  unfold journalAnchor at hok
  rw [hfind] at hok
  dsimp only at hok
  rw [if_pos (Nat.not_lt.1 hfull)] at hok
  split_ifs at hok

theorem writeEntry_position {i : ℕ} (hfind : journalFind j c.key = some (i, e)) :
    position (writeEntry j i (c.onEntry e)).2 c.key = some (c.onEntry e).2 := by
  have hkey := (journalFind_some hfind).2
  have hset : journalFind (writeEntry j i (c.onEntry e)).2 c.key = some (i, (c.onEntry e).2) :=
    lastRow_set_self hfind ((advances_onEntry c e).key.trans hkey)
  rw [position, hset, Option.map_some]

/-- **What a call does to the position of its stream**, and that the journal has room for
what it holds. -/
theorem journalStep_position (hroom : j.entries.length ≤ j.capacity) (c : JournalCall) :
    (journalStep j c).2.entries.length ≤ (journalStep j c).2.capacity ∧
      (((journalStep j c).1 ≠ .ok ∧ (journalStep j c).2 = j) ∨
        (∃ e, position j c.key = some e ∧ (journalStep j c).1 = (c.onEntry e).1 ∧
          position (journalStep j c).2 c.key = some (c.onEntry e).2) ∨
        ∃ seq, c = .anchor c.key seq ∧ position j c.key = none ∧ (journalStep j c).1 = .ok ∧
          position (journalStep j c).2 c.key = some (openedEntry c.key seq)) := by
  have hcase := journalStep_cases j c
  generalize hr : journalStep j c = r at hcase ⊢
  cases hcase with
  | refused hne => exact ⟨hroom, Or.inl ⟨hne, rfl⟩⟩
  | @wrote i e hfind =>
    refine ⟨by rwa [writeEntry, List.length_set], Or.inr (Or.inl ⟨e, ?_, rfl,
      writeEntry_position hfind⟩)⟩
    rw [position, hfind, Option.map_some]
  | @opened seq hc hnone =>
    have hfree : j.entries.length < j.capacity := by
      rw [hc] at hr
      exact room_of_anchor_ok hnone (congrArg Prod.fst hr)
    have hkey : (openedEntry c.key seq).key = c.key := by
      unfold openedEntry
      split_ifs <;> rfl
    have hfind : journalFind { j with entries := j.entries ++ [openedEntry c.key seq] } c.key =
        some (j.entries.length, openedEntry c.key seq) := lastRow_concat_self hkey
    refine ⟨?_, Or.inr (Or.inr ⟨seq, hc, ?_, rfl, ?_⟩)⟩
    · show (j.entries ++ [_]).length ≤ j.capacity
      rw [List.length_append, List.length_singleton]
      exact hfree
    · rw [position, hnone, Option.map_none]
    · rw [position, hfind, Option.map_some]

theorem received_openedEntry (k : StreamKey) (seq : UInt64) :
    (openedEntry k seq).received = seq := by
  unfold openedEntry
  split_ifs with hzero
  · exact hzero.symm
  · rfl

/-- What a call admits or anchors is of its own stream. -/
theorem admits_key (h : admits c = some (k, seq)) : c.key = k := by
  cases c <;> simp only [admits, Option.some.injEq, Prod.mk.injEq, reduceCtorEq] at h
  · exact h.1
  · exact h.1

theorem anchors_key (h : anchors c = some (k, seq)) : c.key = k := by
  cases c <;> simp only [anchors, Option.some.injEq, Prod.mk.injEq, reduceCtorEq] at h
  exact h.1

theorem Positioned.stay {j' : Journal} (h : Positioned s)
    (hroom : j'.entries.length ≤ j'.capacity)
    (hsame : ∀ k, (position j' k).map JournalEntry.received =
      (position s.journal k).map JournalEntry.received) : Positioned { s with journal := j' } := by
  have hback : ∀ k e, position j' k = some e →
      ∃ e₀, position s.journal k = some e₀ ∧ e₀.received = e.received := fun k e he => by
    have hmap := hsame k
    rw [he, Option.map_some] at hmap
    exact Option.map_eq_some_iff.1 hmap.symm
  refine ⟨hroom, fun k hnone => h.unknown k ?_, fun k e he => ?_, fun k e he => ?_,
    fun hzero k e he => ?_⟩
  · have hmap := hsame k
    rw [hnone, Option.map_none] at hmap
    exact Option.map_eq_none_iff.1 hmap.symm
  all_goals obtain ⟨e₀, he₀, heq⟩ := hback k e he
  · rw [← heq]
    exact h.upper k e₀ he₀
  · rw [← heq]
    exact h.reached k e₀ he₀
  · rw [← heq]
    exact h.contiguous hzero k e₀ he₀

/-- **A call that is taken moves the position of its stream up to its sequence**; what is
admitted up to there is the caller's to say. -/
theorem Positioned.move {j' : Journal} {e' : JournalEntry} {adm anc : List (StreamKey × UInt64)}
    (h : Positioned s) (hroom : j'.entries.length ≤ j'.capacity)
    (hmem : ∀ {p}, p ∈ adm ∨ p ∈ anc ↔ p = (k, seq))
    (hup : ∀ e, position s.journal k = some e → e.received < seq)
    (hnext : (∀ p ∈ s.anchored ++ anc, p.2 = 0) → ∀ q, q ≠ 0 → q ≤ seq → (k, q) ∈ s.admitted ++ adm)
    (he' : position j' k = some e') (hseq : e'.received = seq)
    (hother : ∀ k', k' ≠ k → position j' k' = position s.journal k') :
    Positioned { s with
      journal := j'
      admitted := s.admitted ++ adm
      anchored := s.anchored ++ anc } := by
  have hin : ∀ {p}, p ∈ s.admitted ++ adm ∨ p ∈ s.anchored ++ anc ↔
      (p ∈ s.admitted ∨ p ∈ s.anchored) ∨ p = (k, seq) := by
    intro p
    rw [List.mem_append, List.mem_append, or_or_or_comm, hmem]
  have hold : ∀ {k' q}, k' ≠ k → (((k', q) ∈ s.admitted ++ adm ∨ (k', q) ∈ s.anchored ++ anc) ↔
      ((k', q) ∈ s.admitted ∨ (k', q) ∈ s.anchored)) := fun hk =>
    hin.trans (or_iff_left fun heq => hk (Prod.mk.inj heq).1)
  refine ⟨hroom, fun k' hnone q => not_or.1 ?_, fun k' f hf q hq => ?_, fun k' f hf hne => ?_,
    fun hzero k' f hf q hq hle => ?_⟩
  all_goals by_cases hk : k' = k
  · subst hk
    cases hnone.symm.trans he'
  · rw [hold hk]
    exact not_or.2 (h.unknown k' (by rw [← hother k' hk]; exact hnone) q)
  · subst hk
    obtain rfl := Option.some.inj (he'.symm.trans hf)
    rw [hseq]
    rcases hin.1 hq with hq | heq
    · cases hpos : position s.journal k' with
      | none => exact absurd hq (not_or.2 (h.unknown k' hpos q))
      | some e => exact UInt64.le_trans (h.upper k' e hpos q hq) (UInt64.le_of_lt (hup e hpos))
    · rw [(Prod.mk.inj heq).2]
      exact UInt64.le_refl _
  · rw [hother k' hk] at hf
    exact h.upper k' f hf q ((hold hk).1 hq)
  · subst hk
    obtain rfl := Option.some.inj (he'.symm.trans hf)
    exact hin.2 (Or.inr (by rw [hseq]))
  · rw [hother k' hk] at hf
    exact (hold hk).2 (h.reached k' f hf hne)
  · subst hk
    obtain rfl := Option.some.inj (he'.symm.trans hf)
    exact hnext hzero q hq (hseq ▸ hle)
  · rw [hother k' hk] at hf
    exact List.mem_append_left _
      (h.contiguous (fun p hp => hzero p (List.mem_append_left _ hp)) k' f hf q hq hle)

/-- An anchor that skips nothing leaves nothing to be admitted. -/
theorem anchored_next {anchored admitted : List (StreamKey × UInt64)}
    (hzero : ∀ p ∈ anchored ++ [(k, seq)], p.2 = 0) (q : UInt64) (hq : q ≠ 0) (hle : q ≤ seq) :
    (k, q) ∈ admitted := by
  have hseq : seq = 0 := hzero (k, seq) (List.mem_append_right _ (List.mem_singleton_self _))
  rw [hseq, UInt64.le_iff_toNat_le] at hle
  exact absurd (UInt64.toNat_inj.1 (Nat.le_zero.1 hle)) hq

/-- **Every call keeps the position what was taken says it is.** -/
theorem Positioned.step (h : Positioned s) (call : FollowCall) :
    Positioned (followStep s call) := by
  cases call with
  | append r =>
    unfold followStep
    dsimp only
    split_ifs
    · exact ⟨h.room, h.unknown, h.upper, h.reached, h.contiguous⟩
    · exact ⟨h.room, h.unknown, h.upper, h.reached, h.contiguous⟩
  | journal c =>
    have hother : ∀ k', k' ≠ c.key → position (journalStep s.journal c).2 k' =
        position s.journal k' := fun k' hk => position_journalStep_ne (Ne.symm hk)
    obtain ⟨hroom, ⟨hne, heq⟩ | ⟨e, he, herr, he'⟩ | ⟨seq, hc, hnone, hok, he'⟩⟩ :=
      journalStep_position h.room c
    · unfold followStep
      dsimp only
      rw [if_neg hne, heq]
      exact h
    · have hmoved := onEntry_moved c e
      generalize c.onEntry e = r at hmoved herr he'
      cases hmoved with
      | @admitted err e' k seq hc hnext hseq hok =>
        have hanc : anchors c = none := by
          cases c <;> first | rfl | cases hc
        obtain rfl := admits_key hc
        unfold followStep
        dsimp only
        rw [if_pos (herr.trans hok), hc, hanc, Option.toList_none, Option.toList_some]
        refine h.move hroom (by simp) (fun e₀ he₀ => ?_) (fun hzero q hq hle => ?_) he' hseq
          hother
        · rw [Option.some.inj (he₀.symm.trans he), UInt64.lt_iff_toNat_lt]
          omega
        · rw [List.append_nil] at hzero
          rw [UInt64.le_iff_toNat_le] at hle
          rcases Nat.lt_or_ge e.received.toNat q.toNat with hlt | hge
          · have heq : q = seq := UInt64.toNat_inj.1 (by omega)
            exact List.mem_append_right _ (by rw [heq]; exact List.mem_singleton_self _)
          · exact List.mem_append_left _
              (h.contiguous hzero _ e he q hq (UInt64.le_iff_toNat_le.2 hge))
      | @anchored err e' k seq hc hup hseq hok =>
        have hadm : admits c = none := by
          cases c <;> first | rfl | cases hc
        obtain rfl := anchors_key hc
        unfold followStep
        dsimp only
        rw [if_pos (herr.trans hok), hadm, hc, Option.toList_none, Option.toList_some]
        refine h.move hroom (by simp) (fun e₀ he₀ => ?_) anchored_next he' hseq hother
        rwa [Option.some.inj (he₀.symm.trans he)]
      | @stayed err e' hseq hnot =>
        have hstay : Positioned { s with journal := (journalStep s.journal c).2 } := by
          refine h.stay hroom fun k => ?_
          by_cases hk : k = c.key
          · rw [hk, he, he', Option.map_some, Option.map_some, hseq]
          · rw [hother k hk]
        unfold followStep
        dsimp only
        split_ifs with hok
        · obtain ⟨hadm, hanc⟩ := hnot (herr.symm.trans hok)
          rw [hadm, hanc, Option.toList_none, List.append_nil, List.append_nil]
          exact hstay
        · exact hstay
    · have hadm : admits c = none := by rw [hc]; rfl
      have hanc : anchors c = some (c.key, seq) := by rw [hc]; rfl
      unfold followStep
      dsimp only
      rw [if_pos hok, hadm, hanc, Option.toList_none, Option.toList_some]
      exact h.move hroom (by simp) (fun e he => by rw [hnone] at he; cases he) anchored_next he'
        (received_openedEntry _ _) hother

theorem positioned_init {capacity : ℕ} (hj : journalInit capacity = .ok j) (l : RecordLog) :
    Positioned ⟨j, l, [], [], []⟩ := by
  obtain rfl := journalInit_ok hj
  exact ⟨Nat.zero_le _, fun k _ seq => ⟨List.not_mem_nil, List.not_mem_nil⟩,
    fun k e hpos => (by cases hpos), fun k e hpos => (by cases hpos),
    fun _ k e hpos => (by cases hpos)⟩

theorem positioned_run {capacity : ℕ} (hj : journalInit capacity = .ok j) (l : RecordLog)
    (calls : List FollowCall) : Positioned (followRun j l calls) :=
  foldl_induction (P := Positioned) (fun _ c _ h => h.step c) (positioned_init hj l)

/-- **The line between the answers**: below the next sequence stands what is at or below a
sequence admitted or anchored, but for the very last. -/
theorem Positioned.lt_next_iff (h : Positioned s) (hseq : seq ≠ 0) :
    seq < journalNext s.journal k ↔ seq ≠ seqMax ∧
      ∃ q, seq ≤ q ∧ ((k, q) ∈ s.admitted ∨ (k, q) ∈ s.anchored) := by
  have husable : journalUsable s.journal = true := decide_eq_true h.room
  have hpos : 0 < seq.toNat := Nat.pos_of_ne_zero fun hzero => hseq (UInt64.toNat_inj.1 hzero)
  unfold journalNext
  rw [husable, if_neg Bool.noConfusion]
  cases hfind : journalFind s.journal k with
  | none =>
    have hnone : position s.journal k = none := by rw [position, hfind, Option.map_none]
    refine iff_of_false (fun hlt => ?_) ?_
    · rw [UInt64.lt_iff_toNat_lt, UInt64.toNat_one] at hlt
      omega
    · rintro ⟨-, q, -, hq⟩
      obtain ⟨hadm, hanc⟩ := h.unknown k hnone q
      exact hq.elim hadm hanc
  | some p =>
    obtain ⟨i, e⟩ := p
    have he : position s.journal k = some e := by rw [position, hfind, Option.map_some]
    have hmax : seqMax.toNat = 2 ^ 64 - 1 := rfl
    have hreceived := e.received.toNat_lt
    have hle : (seq ≠ seqMax ∧ ∃ q, seq ≤ q ∧ ((k, q) ∈ s.admitted ∨ (k, q) ∈ s.anchored)) ↔
        seq ≠ seqMax ∧ seq ≤ e.received := by
      refine and_congr_right fun _ => ⟨?_, fun hq => ⟨e.received, hq, ?_⟩⟩
      · rintro ⟨q, hq, hin⟩
        exact UInt64.le_trans hq (h.upper k e he q hin)
      · refine h.reached k e he fun hzero => ?_
        rw [hzero, UInt64.le_iff_toNat_le] at hq
        exact absurd (Nat.le_zero.1 hq) (by omega)
    rw [hle, UInt64.le_iff_toNat_le, ne_eq, ← UInt64.toNat_inj, hmax, UInt64.lt_iff_toNat_lt]
    dsimp only
    split_ifs with htop
    · rw [hmax]
      have htop := congrArg UInt64.toNat htop
      omega
    · have hroom : e.received.toNat ≠ 2 ^ 64 - 1 := fun heq =>
        htop (UInt64.toNat_inj.1 (heq.trans hmax.symm))
      rw [UInt64.toNat_add, UInt64.toNat_one, Nat.mod_eq_of_lt (by omega)]
      omega

/-- Where no anchor skips a sequence, what is at or below one admitted was admitted. -/
theorem Positioned.passed_iff (h : Positioned s) (hzero : ∀ p ∈ s.anchored, p.2 = 0)
    (hseq : seq ≠ 0) :
    (∃ q, seq ≤ q ∧ ((k, q) ∈ s.admitted ∨ (k, q) ∈ s.anchored)) ↔ (k, seq) ∈ s.admitted := by
  refine ⟨?_, fun h => ⟨seq, UInt64.le_refl _, Or.inl h⟩⟩
  rintro ⟨q, hle, hq⟩
  cases hpos : position s.journal k with
  | none =>
    obtain ⟨hadm, hanc⟩ := h.unknown k hpos q
    exact (hq.elim hadm hanc).elim
  | some e =>
    exact h.contiguous hzero k e hpos seq hseq (UInt64.le_trans hle (h.upper k e hpos q hq))

end Position

/-! ## The answers -/

section Get

variable {j : Journal} {l : RecordLog} {s : Following} {k : StreamKey} {seq : UInt64}
  {e : RecordLogEntry} {calls : List FollowCall}

/-- The log's side of a run. -/
theorem window_run {capacity : ℕ} (hl : recordLogInit capacity = .ok l) (j : Journal)
    (calls : List FollowCall) (hn : (followRun j l calls).appended.length < 2 ^ 64) :
    (followRun j l calls).log.Window (followRun j l calls).appended ∧
      (followRun j l calls).log.capacity = capacity := by
  induction calls using List.reverseRecOn with
  | nil =>
    refine ⟨window_init hl, ?_⟩
    unfold recordLogInit at hl
    split_ifs at hl
    obtain rfl := Except.ok.inj hl
    rfl
  | append_singleton calls call ih =>
    have hstep : followRun j l (calls ++ [call]) = followStep (followRun j l calls) call := by
      rw [followRun, List.foldl_append]
      rfl
    rw [hstep] at hn ⊢
    cases call with
    | journal c =>
      unfold followStep at hn ⊢
      dsimp only at hn ⊢
      split_ifs at hn ⊢
      · exact ih hn
      · exact ih hn
    | append r =>
      have hlen : (followRun j l calls).appended.length < 2 ^ 64 := by
        refine Nat.lt_of_le_of_lt ?_ hn
        unfold followStep
        dsimp only
        split_ifs
        · rw [List.length_append]
          exact Nat.le_add_right _ _
        · exact le_rfl
      obtain ⟨hwindow, hcap⟩ := ih hlen
      rcases recordLogAppend_cases hwindow r with ⟨-, heq⟩ | ⟨hnew, heq⟩
      · unfold followStep
        dsimp only
        rw [heq, if_neg (by simp)]
        exact ⟨hwindow, hcap⟩
      · unfold followStep at hn ⊢
        dsimp only at hn ⊢
        rw [heq, if_pos rfl] at hn ⊢
        rw [List.length_append, List.length_singleton] at hn
        refine ⟨window_place hwindow hn hnew, ?_⟩
        show ((followRun j l calls).log.place _).capacity = capacity
        rw [← hcap, RecordLog.place]
        split_ifs <;> rfl

/-- **What `fzn_log_get` answers**: the entry held, GONE for what is not held at or below a
sequence admitted or anchored, and ABSENT otherwise. -/
theorem recordLogGet_iff {rs : List RecordView} (hp : Positioned s) (hw : s.log.Window rs)
    (hseq : seq ≠ 0) :
    (∀ e, recordLogGet s.log s.journal k seq = (.ok, some e) ↔
        e ∈ s.log.entries ∧ e.cell = (k, seq)) ∧
      (recordLogGet s.log s.journal k seq = (.gone, none) ↔
        (∀ e ∈ s.log.entries, e.cell ≠ (k, seq)) ∧ seq ≠ seqMax ∧
          ∃ q, seq ≤ q ∧ ((k, q) ∈ s.admitted ∨ (k, q) ∈ s.anchored)) ∧
      (recordLogGet s.log s.journal k seq = (.absent, none) ↔
        (∀ e ∈ s.log.entries, e.cell ≠ (k, seq)) ∧ (seq = seqMax ∨
          ∀ q, seq ≤ q → (k, q) ∉ s.admitted ∧ (k, q) ∉ s.anchored)) := by
  have hguard : ¬ (s.log.usable = false ∨ journalUsable s.journal = false ∨ seq = 0) := by
    rw [hw.usable, show journalUsable s.journal = true from decide_eq_true hp.room, not_or, not_or]
    exact ⟨Bool.noConfusion, Bool.noConfusion, hseq⟩
  have hline := hp.lt_next_iff (k := k) hseq
  rw [recordLogGet, if_neg hguard]
  cases hfind : s.log.find k seq with
  | some p =>
    obtain ⟨i, held⟩ := p
    obtain ⟨hin, hcell⟩ := hw.find_iff.1 ⟨i, hfind⟩
    dsimp only
    refine ⟨fun e => ⟨fun h => ?_, fun h => ?_⟩, iff_of_false (fun h => (by cases h)) fun h =>
      h.1 held hin hcell, iff_of_false (fun h => (by cases h)) fun h => h.1 held hin hcell⟩
    · obtain rfl := Option.some.inj (Prod.mk.inj h).2
      exact ⟨hin, hcell⟩
    · rw [List.inj_on_of_nodup_map hw.cells h.1 hin (h.2.trans hcell.symm)]
  | none =>
    have hnone : ∀ e ∈ s.log.entries, e.cell ≠ (k, seq) := lastRow_eq_none_iff.1 hfind
    dsimp only
    refine ⟨fun e => iff_of_false (fun h => ?_) fun h => hnone e h.1 h.2, ?_, ?_⟩
    · split_ifs at h <;> cases h
    · split_ifs with hlt
      · exact iff_of_true rfl ⟨hnone, hline.1 hlt⟩
      · exact iff_of_false (fun h => (by cases h)) fun h => hlt (hline.2 h.2)
    · split_ifs with hlt
      · refine iff_of_false (fun h => (by cases h)) fun ⟨_, h⟩ => ?_
        obtain ⟨hne, q, hle, hq⟩ := hline.1 hlt
        rcases h with h | h
        · exact hne h
        · exact hq.elim (h q hle).1 (h q hle).2
      · refine iff_of_true rfl ⟨hnone, ?_⟩
        by_contra hno
        rw [not_or, not_forall] at hno
        obtain ⟨hne, q, hq⟩ := hno
        rw [not_forall] at hq
        obtain ⟨hle, hq⟩ := hq
        rw [not_and_or, not_not, not_not] at hq
        exact hlt (hline.2 ⟨hne, q, hle, hq⟩)

end Get

/-- **The record log is the window of the last appends, and tells a loss from a wait**, while
fewer than 2^64 appends have been taken.  What is held are the last of the appends there is
room for, one entry for each record; a record still held is refused and any other is taken; a
read of a stream is its lowest entries above the sequence asked from.  A get answers the entry
held, GONE for a sequence not held at or below one admitted or anchored, and ABSENT for any
other and for the very last.  Where what is appended was admitted, what is admitted is
appended, and no anchor skips a sequence, GONE is what was admitted and evicted and ABSENT
what was never admitted. -/
theorem record_log_window {jcap cap : ℕ} {j : Journal} {l : RecordLog}
    (hj : journalInit jcap = .ok j) (hl : recordLogInit cap = .ok l) (calls : List FollowCall)
    (hn : (followRun j l calls).appended.length < 2 ^ 64) :
    let s := followRun j l calls
    (s.log.entries.Perm ((stamped s.appended).drop (s.appended.length - cap)) ∧
        (s.log.entries.map RecordLogEntry.cell).Nodup ∧
        s.log.dropped + UInt64.ofNat s.log.entries.length = UInt64.ofNat s.appended.length) ∧
      (∀ r, ((∃ e ∈ s.log.entries, e.cell = (r.key, r.seq)) ∧
            recordLogAppend s.log r = (.duplicate, s.log)) ∨
          ((∀ e ∈ s.log.entries, e.cell ≠ (r.key, r.seq)) ∧ (recordLogAppend s.log r).1 = .ok)) ∧
      (∀ k since room, ReadsSince s.log.entries k since room (s.log.readSince k since room)) ∧
      (∀ k seq, seq ≠ 0 →
        (∀ e, recordLogGet s.log s.journal k seq = (.ok, some e) ↔
            e ∈ s.log.entries ∧ e.cell = (k, seq)) ∧
          (recordLogGet s.log s.journal k seq = (.gone, none) ↔
            (∀ e ∈ s.log.entries, e.cell ≠ (k, seq)) ∧ seq ≠ seqMax ∧
              ∃ q, seq ≤ q ∧ ((k, q) ∈ s.admitted ∨ (k, q) ∈ s.anchored)) ∧
          (recordLogGet s.log s.journal k seq = (.absent, none) ↔
            (∀ e ∈ s.log.entries, e.cell ≠ (k, seq)) ∧ (seq = seqMax ∨
              ∀ q, seq ≤ q → (k, q) ∉ s.admitted ∧ (k, q) ∉ s.anchored))) ∧
      ((∀ r ∈ s.appended, (r.key, r.seq) ∈ s.admitted) →
        (∀ p ∈ s.admitted, ∃ r ∈ s.appended, (r.key, r.seq) = p) →
        (∀ p ∈ s.anchored, p.2 = 0) → ∀ k seq, seq ≠ 0 →
          (recordLogGet s.log s.journal k seq = (.gone, none) ↔ seq ≠ seqMax ∧
            (k, seq) ∈ s.admitted ∧ (∃ r ∈ s.appended, (r.key, r.seq) = (k, seq)) ∧
            ∀ e ∈ s.log.entries, e.cell ≠ (k, seq)) ∧
          (recordLogGet s.log s.journal k seq = (.absent, none) ↔ (k, seq) ∉ s.admitted ∨
            seq = seqMax ∧ ∀ e ∈ s.log.entries, e.cell ≠ (k, seq))) := by
  intro s
  have hp : Positioned s := positioned_run hj l calls
  obtain ⟨hw, hcap⟩ := window_run hl j calls hn
  have hentries := hw.entries
  rw [newest_one, length_stamped, hcap] at hentries
  refine ⟨⟨hentries, hw.cells, hw.dropped⟩, fun r => ?_, fun k since room => ?_,
    fun k seq hseq => recordLogGet_iff hp hw hseq, fun hadm happ hanc k seq hseq => ?_⟩
  · rcases recordLogAppend_cases hw r with hdup | ⟨hnew, heq⟩
    · exact Or.inl hdup
    · exact Or.inr ⟨lastRow_eq_none_iff.1 hnew, by rw [heq]⟩
  · rw [RecordLog.readSince, hw.usable, if_neg Bool.noConfusion]
    exact readFrom_spec hw.cells k room since
  · obtain ⟨-, hgone, habsent⟩ := recordLogGet_iff (k := k) hp hw hseq
    have hpassed := hp.passed_iff (k := k) hanc hseq
    have hheld : (k, seq) ∉ s.admitted → ∀ e ∈ s.log.entries, e.cell ≠ (k, seq) :=
      fun hnot e he hcell => by
        obtain ⟨r, hr, hcell'⟩ := cell_of_mem_stamped
          ((newest_suffix _).subset (hw.entries.mem_iff.1 he))
        exact hnot (by rw [← hcell, ← hcell']; exact hadm r hr)
    rw [hgone, habsent, hpassed]
    refine ⟨⟨fun h => ⟨h.2.1, h.2.2, happ _ h.2.2, h.1⟩, fun h => ⟨h.2.2.2, h.1, h.2.1⟩⟩,
      fun ⟨hno, h⟩ => ?_, fun h => ?_⟩
    · rcases h with htop | hnone
      · exact Or.inr ⟨htop, hno⟩
      · exact Or.inl fun hin => (hnone seq (UInt64.le_refl _)).1 hin
    · rcases h with hnot | ⟨htop, hno⟩
      · refine ⟨hheld hnot, Or.inr fun q hle => ?_⟩
        exact ⟨fun hq => hnot (hpassed.1 ⟨q, hle, Or.inl hq⟩),
          fun hq => hnot (hpassed.1 ⟨q, hle, Or.inr hq⟩)⟩
      · exact ⟨hno, Or.inl htop⟩

/-! ## Two records of a stream, one anchor, and a turn of the stamps -/

/-- Three records of one stream. -/
def turnRecord (i : ℕ) : RecordView :=
  if i % 3 = 0 then State.grant
  else if i % 3 = 1 then State.revocation
  else ⟨State.settingBytes 15, by decide +kernel⟩

theorem turnRecord_seq (i : ℕ) :
    (turnRecord i).seq = if i % 3 = 0 then 5 else if i % 3 = 1 then 10 else 15 := by
  have hfive : State.grant.seq = 5 := by decide
  have hten : State.revocation.seq = 10 := by decide
  have hfifteen : UInt64.ofNat (getBe (State.settingBytes 15) 74 8) = 15 := by decide
  unfold turnRecord
  split_ifs
  · exact hfive
  · exact hten
  · exact hfifteen

/-- One of the next two is another record. -/
theorem turnRecord_ne {i k : ℕ} (h : i % 3 ≠ k % 3) : (turnRecord i).seq ≠ (turnRecord k).seq := by
  rw [turnRecord_seq, turnRecord_seq]
  split_ifs <;> first | omega | decide

/-- The records in turn. -/
def turns (n : ℕ) : List RecordView := (List.range n).map turnRecord

theorem turns_succ (n : ℕ) : turns (n + 1) = turns n ++ [turnRecord n] := by
  rw [turns, List.range_succ, List.map_append, List.map_singleton]
  rfl

theorem length_turns (n : ℕ) : (turns n).length = n := by
  rw [turns, List.length_map, List.length_range]

/-- The last two of them, stamped. -/
theorem stamped_turns (n : ℕ) : (stamped (turns (n + 2))).drop n =
    [entryOf (turnRecord n) (UInt64.ofNat (n + 1)),
      entryOf (turnRecord (n + 1)) (UInt64.ofNat (n + 2))] := by
  rw [turns_succ, turns_succ, stamped_concat, stamped_concat, List.append_assoc,
    List.drop_left' ((length_stamped _).trans (length_turns n)), List.length_append,
    length_turns]
  rfl

/-- What a log of two holds of the records in turn. -/
theorem cell_of_turns {n : ℕ} {e : RecordLogEntry}
    (h : e ∈ newest 2 (fun _ => 1) (stamped (turns n))) :
    ∃ i, i < n ∧ n ≤ i + 2 ∧ e.cell = ((turnRecord i).key, (turnRecord i).seq) := by
  rw [newest_one, length_stamped, length_turns] at h
  rcases Nat.lt_or_ge n 2 with hlt | hge
  · obtain ⟨r, hr, hcell⟩ := cell_of_mem_stamped (List.mem_of_mem_drop h)
    obtain ⟨i, hi, rfl⟩ := List.mem_map.1 hr
    rw [List.mem_range] at hi
    exact ⟨i, hi, by omega, hcell.symm⟩
  · obtain ⟨m, rfl⟩ : ∃ m, n = m + 2 := ⟨n - 2, by omega⟩
    rw [Nat.add_sub_cancel, stamped_turns] at h
    rcases List.mem_cons.1 h with rfl | h
    · exact ⟨m, by omega, by omega, rfl⟩
    · obtain rfl := List.mem_singleton.1 h
      exact ⟨m + 1, by omega, by omega, rfl⟩

/-- The records appended in turn to a log of two. -/
def turnRun (n : ℕ) : Following :=
  followRun ⟨[], 1⟩ ⟨[], 2, 1, 0⟩ ((turns n).map FollowCall.append)

theorem turnRun_succ (n : ℕ) : turnRun (n + 1) = followStep (turnRun n) (.append (turnRecord n)) := by
  rw [turnRun, turns_succ, List.map_append, followRun, List.foldl_append]
  rfl

/-- Before the stamps come round each is taken. -/
theorem turnRun_window {n : ℕ} (hn : n < 2 ^ 64) :
    (turnRun n).appended = turns n ∧ (turnRun n).log.Window (turns n) ∧
      (turnRun n).log.capacity = 2 := by
  induction n with
  | zero => exact ⟨rfl, window_init (show recordLogInit 2 = .ok _ from rfl), rfl⟩
  | succ n ih =>
    obtain ⟨happ, hw, hcap⟩ := ih (by omega)
    rw [turnRun_succ]
    rcases recordLogAppend_cases hw (turnRecord n) with ⟨⟨e, he, hcell⟩, -⟩ | ⟨hnew, heq⟩
    · have hin := hw.entries.mem_iff.1 he
      rw [hcap] at hin
      obtain ⟨i, hi, hle, hold⟩ := cell_of_turns hin
      exact absurd (Prod.mk.inj (hold.symm.trans hcell)).2 (turnRecord_ne (by omega))
    · unfold followStep
      dsimp only
      rw [heq, if_pos rfl, turns_succ, happ]
      refine ⟨rfl, window_place hw (by rw [length_turns]; omega) hnew, ?_⟩
      show ((turnRun n).log.place _).capacity = 2
      rw [← hcap, RecordLog.place]
      split_ifs <;> rfl

/-- An append to a full log of two: the lower stamp goes. -/
theorem append_two {l : RecordLog} {a b : RecordLogEntry} {r : RecordView} (hcap : l.capacity = 2)
    (hperm : l.entries.Perm [a, b]) (hlow : a.stamp < b.stamp) (ha : a.seq ≠ r.seq)
    (hb : b.seq ≠ r.seq) :
    (recordLogAppend l r).1 = .ok ∧
      (recordLogAppend l r).2.entries.Perm [b, entryOf r l.nextStamp] ∧
      (recordLogAppend l r).2.capacity = 2 ∧
      (recordLogAppend l r).2.nextStamp = l.nextStamp + 1 := by
  have hlen : l.entries.length = 2 := hperm.length_eq
  have husable : l.usable = true := decide_eq_true ⟨by omega, by omega⟩
  have hnew : l.find r.key r.seq = none := by
    refine lastRow_eq_none_iff.2 fun e he hcell => ?_
    have hseq : e.seq = r.seq := (Prod.mk.inj hcell).2
    rcases List.mem_cons.1 (hperm.mem_iff.1 he) with rfl | he
    · exact ha hseq
    · obtain rfl := List.mem_singleton.1 he
      exact hb hseq
  have hfull : ¬l.entries.length < l.capacity := by omega
  have hplace := place_full (x := entryOf r l.nextStamp) hfull hperm fun b' hb' => by
    rwa [List.mem_singleton.1 hb']
  rw [recordLogAppend, husable, if_neg (by
    rw [not_or]
    exact ⟨Bool.noConfusion, State.seq_ne_zero r⟩), hnew, Option.isSome_none,
    if_neg Bool.false_ne_true]
  refine ⟨rfl, hplace, ?_, rfl⟩
  show (l.place _).capacity = 2
  rw [← hcap, RecordLog.place, if_neg hfull]

theorem followStep_of_ok {s : Following} {r : RecordView}
    (hok : (recordLogAppend s.log r).1 = .ok) :
    (followStep s (.append r)).log = (recordLogAppend s.log r).2 ∧
      (followStep s (.append r)).appended = s.appended ++ [r] := by
  unfold followStep
  dsimp only
  rw [if_pos hok]
  exact ⟨rfl, rfl⟩

/-- **Once the stamps have come round, the newest entry is taken for the oldest**: of 2^64 + 1
appends to a log of two, the last but one is not held. -/
theorem turnRun_wraps : (turnRun (2 ^ 64 + 1)).appended = turns (2 ^ 64 + 1) ∧
    ¬(turnRun (2 ^ 64 + 1)).log.entries.Perm
      ((stamped (turns (2 ^ 64 + 1))).drop (2 ^ 64 - 1)) := by
  obtain ⟨n, hn⟩ : ∃ n : ℕ, n + 2 = 2 ^ 64 - 1 := ⟨2 ^ 64 - 3, by norm_num⟩
  obtain ⟨happ, hw, hcap⟩ := turnRun_window (n := n + 2) (by omega)
  have hperm := hw.entries
  have hnext := hw.nextStamp
  have hzero : UInt64.ofNat (n + 2 + 1) = 0 := by
    rw [hn]
    rfl
  rw [hcap, newest_one, length_stamped, length_turns, Nat.add_sub_cancel, stamped_turns] at hperm
  rw [length_turns, hzero] at hnext
  have hlow : UInt64.ofNat (n + 1) < UInt64.ofNat (n + 2) := by
    rw [UInt64.lt_iff_toNat_lt, UInt64.toNat_ofNat', UInt64.toNat_ofNat',
      Nat.mod_eq_of_lt (by omega), Nat.mod_eq_of_lt (by omega)]
    omega
  have hhigh : (0 : UInt64) < UInt64.ofNat (n + 2) := by
    rw [UInt64.lt_iff_toNat_lt, UInt64.toNat_ofNat', Nat.mod_eq_of_lt (by omega)]
    exact Nat.succ_pos _
  obtain ⟨hok, hone, hcap', hnext'⟩ := append_two (r := turnRecord (n + 2)) hcap hperm hlow
    (turnRecord_ne (by omega)) (turnRecord_ne (by omega))
  rw [hnext] at hone hnext'
  obtain ⟨hok', htwo, -, -⟩ := append_two (r := turnRecord (n + 3)) hcap'
    (hone.trans (List.Perm.swap _ _ _)) hhigh (turnRecord_ne (by omega)) (turnRecord_ne (by omega))
  obtain ⟨hlog, happ'⟩ := followStep_of_ok hok
  rw [← turnRun_succ, happ, ← turns_succ] at happ'
  rw [← turnRun_succ] at hlog
  rw [← hlog] at hok' htwo
  obtain ⟨hlog', happ''⟩ := followStep_of_ok hok'
  rw [← turnRun_succ, happ', ← turns_succ] at happ''
  rw [← turnRun_succ] at hlog'
  rw [← hlog'] at htwo
  have hend : 2 ^ 64 + 1 = n + 2 + 2 := by omega
  rw [hend, show 2 ^ 64 - 1 = n + 2 by omega, stamped_turns]
  refine ⟨happ'', fun hwindow => ?_⟩
  have hin := hwindow.mem_iff.1 (htwo.mem_iff.2 List.mem_cons_self)
  rcases List.mem_cons.1 hin with heq | hin
  · exact turnRecord_ne (by omega) (congrArg RecordLogEntry.seq heq)
  · exact turnRecord_ne (by omega) (congrArg RecordLogEntry.seq (List.mem_singleton.1 hin))

/-- A stream followed from its start: its first three records, each admitted to the journal and
appended. -/
def linkedCalls : List FollowCall :=
  [.journal (.anchor ⟨7, 3⟩ 0),
    .journal (.admitSeq ⟨7, 3⟩ 1), .append ⟨linked 0, by decide +kernel⟩,
    .journal (.admitSeq ⟨7, 3⟩ 2), .append ⟨linked 1, by decide +kernel⟩,
    .journal (.admitSeq ⟨7, 3⟩ 3), .append ⟨linked 2, by decide +kernel⟩]

/-- Of the three a log of two holds the last two: the first is GONE, and a fourth ABSENT. -/
theorem record_log_window_linked :
    (followRun ⟨[], 1⟩ ⟨[], 2, 1, 0⟩ linkedCalls).log.entries.Perm
        ((stamped (followRun ⟨[], 1⟩ ⟨[], 2, 1, 0⟩ linkedCalls).appended).drop 1) ∧
      recordLogGet (followRun ⟨[], 1⟩ ⟨[], 2, 1, 0⟩ linkedCalls).log
        (followRun ⟨[], 1⟩ ⟨[], 2, 1, 0⟩ linkedCalls).journal ⟨7, 3⟩ 1 = (.gone, none) ∧
      recordLogGet (followRun ⟨[], 1⟩ ⟨[], 2, 1, 0⟩ linkedCalls).log
        (followRun ⟨[], 1⟩ ⟨[], 2, 1, 0⟩ linkedCalls).journal ⟨7, 3⟩ 4 = (.absent, none) := by
  have hlen : (followRun ⟨[], 1⟩ ⟨[], 2, 1, 0⟩ linkedCalls).appended.length = 3 := by
    decide +kernel
  obtain ⟨⟨hentries, -⟩, -, -, -, hget⟩ := @record_log_window 1 2 _ _ rfl rfl linkedCalls
    (by rw [hlen]; decide)
  rw [hlen] at hentries
  have hfollowed := hget (by decide +kernel) (by decide +kernel) (by decide +kernel) ⟨7, 3⟩
  exact ⟨hentries, (hfollowed 1 (by decide)).1.2 (by decide +kernel),
    (hfollowed 4 (by decide)).2.2 (.inl (by decide +kernel))⟩

/-- **An anchor answers GONE for what was never admitted**, and a log whose stamps came round
does not hold the last appends. -/
theorem record_log_not_always :
    (¬ ∀ (jcap cap : ℕ) (j : Journal) (l : RecordLog), journalInit jcap = .ok j →
        recordLogInit cap = .ok l → ∀ calls,
        (∀ r ∈ (followRun j l calls).appended, (r.key, r.seq) ∈ (followRun j l calls).admitted) →
        ∀ k seq, seq ≠ 0 → seq ≠ seqMax →
          (recordLogGet (followRun j l calls).log (followRun j l calls).journal k seq =
            (.absent, none) ↔ (k, seq) ∉ (followRun j l calls).admitted)) ∧
      ¬ ∀ (jcap cap : ℕ) (j : Journal) (l : RecordLog), journalInit jcap = .ok j →
        recordLogInit cap = .ok l → ∀ calls, (followRun j l calls).log.entries.Perm
          ((stamped (followRun j l calls).appended).drop
            ((followRun j l calls).appended.length - cap)) := by
  constructor
  · intro hall
    have hanchored : recordLogGet (followRun ⟨[], 1⟩ ⟨[], 1, 1, 0⟩
        [.journal (.anchor ⟨7, 0⟩ 5)]).log (followRun ⟨[], 1⟩ ⟨[], 1, 1, 0⟩
        [.journal (.anchor ⟨7, 0⟩ 5)]).journal ⟨7, 0⟩ 3 = (.gone, none) := by decide
    have habsent := (hall 1 1 ⟨[], 1⟩ ⟨[], 1, 1, 0⟩ rfl rfl [.journal (.anchor ⟨7, 0⟩ 5)]
      (fun r hr => absurd hr List.not_mem_nil) ⟨7, 0⟩ 3 (by decide) (by decide)).2
      List.not_mem_nil
    rw [hanchored] at habsent
    cases habsent
  · intro hall
    obtain ⟨happ, hno⟩ := turnRun_wraps
    refine hno ?_
    have hwindow := hall 1 2 ⟨[], 1⟩ ⟨[], 2, 1, 0⟩ rfl rfl
      ((turns (2 ^ 64 + 1)).map FollowCall.append)
    rw [← turnRun, happ, length_turns] at hwindow
    exact hwindow

end Log
end Fuzznet
