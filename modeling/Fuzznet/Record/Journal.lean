/-
# The journal

`record/journal.c`: how far this host has received and applied each stream it follows,
a stream being an issuer and a number it chose.  `fzn_journal_admit_chained` admits a
record as a link: it names the head held as its predecessor and becomes the head.

An entry is found by the last match and written where it was found; each call is the
same function of the entry for every stream (`admitEntry`, `chainEntry`, `anchorEntry`,
`confirmEntry`), and a call moves the entry of its own stream alone
(`position_journalStep_ne`) and only forwards (`advances_journalStep`).
-/

import Fuzznet.Lib.LastRow
import Fuzznet.Lib.Runs
import Fuzznet.Wire.Bytes

namespace Fuzznet
namespace Record

open Wire

/-- `fzn_journal_err_t`. -/
inductive JournalErr
  | ok
  | malformed
  | duplicate
  | gap
  | full
  | unknownIssuer
  | notReceived
  | fork
  deriving DecidableEq, Repr

/-- An issuer and one of its streams. -/
structure StreamKey where
  issuer : Key
  stream : UInt32
  deriving DecidableEq, Repr

/-- `fzn_journal_entry_t`: one stream's position. -/
structure JournalEntry where
  key : StreamKey
  received : UInt64
  applied : UInt64
  head : RecId
  hasHead : Bool
  forked : Bool
  deriving DecidableEq, Repr

/-- `fzn_journal_t`: the entries in use and the room the caller gave. -/
structure Journal where
  entries : List JournalEntry
  capacity : ℕ
  deriving DecidableEq, Repr

/-- `fzn_journal_init` over an array of `capacity` entries. -/
def journalInit (capacity : ℕ) : Except JournalErr Journal :=
  if capacity = 0 then .error .malformed else .ok ⟨[], capacity⟩

/-- `find`: the last entry of the stream, and its index. -/
def journalFind (j : Journal) (k : StreamKey) : Option (ℕ × JournalEntry) :=
  Lib.lastRow JournalEntry.key k j.entries

/-- `usable`: the count is within the array. -/
def journalUsable (j : Journal) : Bool := decide (j.entries.length ≤ j.capacity)

/-- What a call answered, and the entry it leaves at index `i`. -/
def writeEntry (j : Journal) (i : ℕ) (r : JournalErr × JournalEntry) : JournalErr × Journal :=
  (r.1, { j with entries := j.entries.set i r.2 })

/-- `fzn_journal_admit` on the stream's entry.  Unchained, the head is not known any
more. -/
def admitEntry (e : JournalEntry) (seq : UInt64) : JournalErr × JournalEntry :=
  if seq ≤ e.received then (.duplicate, e)
  else if seq > e.received + 1 then (.gap, e)
  else (.ok, { e with received := seq, head := 0, hasHead := false })

/-- `fzn_journal_admit_chained` on the stream's entry: two forks, then the admission,
then the head. -/
def chainEntry (e : JournalEntry) (seq : UInt64) (prev id : RecId) : JournalErr × JournalEntry :=
  if e.hasHead ∧ seq = e.received ∧ e.received ≠ 0 ∧ e.head ≠ id then
    (.fork, { e with forked := true })
  else if seq = e.received + 1 ∧ e.hasHead ∧ e.head ≠ prev then (.fork, { e with forked := true })
  else match admitEntry e seq with
    | (.ok, e') => (.ok, { e' with head := id, hasHead := true })
    | r => r

/-- `fzn_journal_anchor` on an entry that is there: never backwards, and a jump leaves
no known head. -/
def anchorEntry (e : JournalEntry) (seq : UInt64) : JournalErr × JournalEntry :=
  if seq ≤ e.received then (.duplicate, e)
  else (.ok, { e with received := seq, head := 0, hasHead := false })

/-- `fzn_journal_confirm` on the stream's entry. -/
def confirmEntry (e : JournalEntry) (seq : UInt64) : JournalErr × JournalEntry :=
  if seq > e.received then (.notReceived, e)
  else if seq ≤ e.applied then (.duplicate, e)
  else (.ok, { e with applied := seq })

/-- An entry followed from the beginning: its head is known, and is nothing. -/
def freshEntry (k : StreamKey) : JournalEntry where
  key := k
  received := 0
  applied := 0
  head := 0
  hasHead := true
  forked := false

/-- `fzn_journal_admit`.  Admitting does not adopt. -/
def journalAdmit (j : Journal) (k : StreamKey) (seq : UInt64) : JournalErr × Journal :=
  if journalUsable j = false ∨ seq = 0 then (.malformed, j)
  else match journalFind j k with
    | none => (.unknownIssuer, j)
    | some (i, e) => writeEntry j i (admitEntry e seq)

/-- `fzn_journal_admit_chained`. -/
def journalAdmitChained (j : Journal) (k : StreamKey) (seq : UInt64) (prev id : RecId) :
    JournalErr × Journal :=
  if journalUsable j = false ∨ seq = 0 then (.malformed, j)
  else match journalFind j k with
    | none => (.unknownIssuer, j)
    | some (i, e) => writeEntry j i (chainEntry e seq prev id)

/-- `fzn_journal_anchor`. -/
def journalAnchor (j : Journal) (k : StreamKey) (seq : UInt64) : JournalErr × Journal :=
  if journalUsable j = false then (.malformed, j)
  else match journalFind j k with
    | none =>
      if j.entries.length ≥ j.capacity then (.full, j)
      else if seq = 0 then (.ok, { j with entries := j.entries ++ [freshEntry k] })
      else ((anchorEntry (freshEntry k) seq).1,
        { j with entries := j.entries ++ [(anchorEntry (freshEntry k) seq).2] })
    | some (i, e) => if seq = 0 then (.duplicate, j) else writeEntry j i (anchorEntry e seq)

/-- `fzn_journal_confirm`. -/
def journalConfirm (j : Journal) (k : StreamKey) (seq : UInt64) : JournalErr × Journal :=
  if journalUsable j = false then (.malformed, j)
  else match journalFind j k with
    | none => (.unknownIssuer, j)
    | some (i, e) => writeEntry j i (confirmEntry e seq)

/-- `UINT64_MAX`. -/
def seqMax : UInt64 := 18446744073709551615

/-- `fzn_journal_next`, which saturates. -/
def journalNext (j : Journal) (k : StreamKey) : UInt64 :=
  if journalUsable j = false then 1
  else match journalFind j k with
    | none => 1
    | some (_, e) => if e.received = seqMax then seqMax else e.received + 1

/-! ## Calls and runs -/

/-- One call on a journal. -/
inductive JournalCall
  | admitSeq (k : StreamKey) (seq : UInt64)
  | admitChained (k : StreamKey) (seq : UInt64) (prev id : RecId)
  | anchor (k : StreamKey) (seq : UInt64)
  | confirm (k : StreamKey) (seq : UInt64)
  deriving DecidableEq, Repr

/-- The stream a call is about. -/
def JournalCall.key : JournalCall → StreamKey
  | .admitSeq k _ | .admitChained k _ _ _ | .anchor k _ | .confirm k _ => k

/-- The answer of a call and the journal behind it. -/
def journalStep (j : Journal) : JournalCall → JournalErr × Journal
  | .admitSeq k seq => journalAdmit j k seq
  | .admitChained k seq prev id => journalAdmitChained j k seq prev id
  | .anchor k seq => journalAnchor j k seq
  | .confirm k seq => journalConfirm j k seq

/-- The journal behind a run of calls. -/
def journalRun (j : Journal) (calls : List JournalCall) : Journal :=
  calls.foldl (fun j c => (journalStep j c).2) j

/-- The entry a call on a stream reads and writes. -/
def position (j : Journal) (k : StreamKey) : Option JournalEntry := (journalFind j k).map Prod.snd

theorem journalInit_ok {capacity : ℕ} {j : Journal} (h : journalInit capacity = .ok j) :
    j = ⟨[], capacity⟩ := by
  unfold journalInit at h
  split at h
  · cases h
  · exact (Except.ok.inj h).symm

/-! ## What one call does -/

/-- What a call does to the entry of its stream. -/
def JournalCall.onEntry : JournalCall → JournalEntry → JournalErr × JournalEntry
  | .admitSeq _ seq, e => admitEntry e seq
  | .admitChained _ seq prev id, e => chainEntry e seq prev id
  | .anchor _ seq, e => anchorEntry e seq
  | .confirm _ seq, e => confirmEntry e seq

/-- The entry an anchor at `seq` opens. -/
def openedEntry (k : StreamKey) (seq : UInt64) : JournalEntry :=
  if seq = 0 then freshEntry k else { freshEntry k with received := seq, hasHead := false }

/-- What a call can answer, and the journal it leaves. -/
inductive StepCase (j : Journal) (c : JournalCall) : JournalErr × Journal → Prop
  | refused {err : JournalErr} (hne : err ≠ .ok) : StepCase j c (err, j)
  | wrote {i : ℕ} {e : JournalEntry} (hfind : journalFind j c.key = some (i, e)) :
      StepCase j c (writeEntry j i (c.onEntry e))
  | opened {seq : UInt64} (hc : c = .anchor c.key seq) (hnone : journalFind j c.key = none) :
      StepCase j c (.ok, { j with entries := j.entries ++ [openedEntry c.key seq] })

/-- A call that asks for the entry of its stream and writes it. -/
theorem stepCase_find {j : Journal} {c : JournalCall} {P : Prop} [Decidable P] :
    StepCase j c (if P then (.malformed, j)
      else match journalFind j c.key with
        | none => (.unknownIssuer, j)
        | some (i, e) => writeEntry j i (c.onEntry e)) := by
  by_cases hp : P
  · rw [if_pos hp]
    exact .refused (by simp)
  rw [if_neg hp]
  cases hfind : journalFind j c.key with
  | none => exact .refused (by simp)
  | some x => exact .wrote hfind

theorem journalStep_cases (j : Journal) (c : JournalCall) : StepCase j c (journalStep j c) := by
  cases c with
  | admitSeq k seq => exact stepCase_find (c := .admitSeq k seq)
  | admitChained k seq prev id => exact stepCase_find (c := .admitChained k seq prev id)
  | confirm k seq => exact stepCase_find (c := .confirm k seq)
  | anchor k seq =>
    show StepCase j _ (journalAnchor j k seq)
    unfold journalAnchor
    by_cases husable : journalUsable j = false
    · rw [if_pos husable]
      exact .refused (by simp)
    rw [if_neg husable]
    cases hfind : journalFind j k with
    | none =>
      dsimp only
      by_cases hfull : j.entries.length ≥ j.capacity
      · rw [if_pos hfull]
        exact .refused (by simp)
      rw [if_neg hfull]
      have hopen := @StepCase.opened j (.anchor k seq) seq rfl hfind
      unfold openedEntry at hopen
      by_cases hz : seq = 0
      · rw [if_pos hz] at hopen ⊢
        exact hopen
      · have hpos : ¬seq ≤ (freshEntry k).received := fun hle =>
          hz (UInt64.le_antisymm hle (UInt64.zero_le))
        rw [if_neg hz] at hopen
        rw [if_neg hz, anchorEntry, if_neg hpos]
        exact hopen
    | some p =>
      dsimp only
      by_cases hz : seq = 0
      · rw [if_pos hz]
        exact .refused (by simp)
      · rw [if_neg hz]
        exact .wrote hfind

/-- A fork is recorded in the entry and nowhere else. -/
theorem chainEntry_cases (e : JournalEntry) (seq : UInt64) (prev id : RecId) :
    chainEntry e seq prev id = (.fork, { e with forked := true }) ∨
      ((admitEntry e seq).1 ≠ .ok ∧ chainEntry e seq prev id = admitEntry e seq) ∨
      ((admitEntry e seq).1 = .ok ∧ chainEntry e seq prev id =
        (.ok, { e with received := seq, head := id, hasHead := true })) := by
  unfold chainEntry
  split_ifs
  · exact Or.inl rfl
  · exact Or.inl rfl
  unfold admitEntry
  split_ifs
  · exact Or.inr (Or.inl ⟨by simp, rfl⟩)
  · exact Or.inr (Or.inl ⟨by simp, rfl⟩)
  · exact Or.inr (Or.inr ⟨rfl, rfl⟩)

/-- A position that keeps its stream, is not taken back, and does not get behind what
was applied. -/
structure Advances (e e' : JournalEntry) : Prop where
  key : e'.key = e.key
  received : e.received ≤ e'.received
  applied : e.applied ≤ e.received → e'.applied ≤ e'.received

theorem Advances.refl (e : JournalEntry) : Advances e e := ⟨rfl, UInt64.le_refl _, id⟩

/-- A position moved up to `seq`. -/
theorem Advances.to {e e' : JournalEntry} (hkey : e'.key = e.key)
    (happlied : e'.applied = e.applied)
    (hseq : ¬e'.received ≤ e.received) : Advances e e' := by
  have hle := UInt64.le_of_lt (UInt64.not_le.1 hseq)
  exact ⟨hkey, hle, fun h => by rw [happlied]; exact UInt64.le_trans h hle⟩

theorem advances_admitEntry (e : JournalEntry) (seq : UInt64) :
    Advances e (admitEntry e seq).2 := by
  unfold admitEntry
  split_ifs with hdup hgap
  · exact .refl e
  · exact .refl e
  · exact .to rfl rfl hdup

theorem advances_chainEntry (e : JournalEntry) (seq : UInt64) (prev id : RecId) :
    Advances e (chainEntry e seq prev id).2 := by
  have hstep := advances_admitEntry e seq
  rcases chainEntry_cases e seq prev id with hfork | ⟨-, heq⟩ | ⟨hok, heq⟩
  · rw [hfork]
    exact ⟨rfl, UInt64.le_refl _, fun h => h⟩
  · rw [heq]
    exact hstep
  · rw [heq]
    have hdup : ¬seq ≤ e.received := fun hle => by
      simp [admitEntry, hle] at hok
    exact .to rfl rfl hdup

theorem advances_anchorEntry (e : JournalEntry) (seq : UInt64) :
    Advances e (anchorEntry e seq).2 := by
  unfold anchorEntry
  split_ifs with hdup
  · exact .refl e
  · exact .to rfl rfl hdup

theorem advances_confirmEntry (e : JournalEntry) (seq : UInt64) :
    Advances e (confirmEntry e seq).2 := by
  unfold confirmEntry
  split_ifs with hfar hdup
  · exact .refl e
  · exact .refl e
  · exact ⟨rfl, UInt64.le_refl _, fun _ => UInt64.not_lt.1 hfar⟩

/-- **Every call advances the entry of its stream.** -/
theorem advances_onEntry (c : JournalCall) (e : JournalEntry) : Advances e (c.onEntry e).2 := by
  cases c with
  | admitSeq k seq => exact advances_admitEntry e seq
  | admitChained k seq prev id => exact advances_chainEntry e seq prev id
  | anchor k seq => exact advances_anchorEntry e seq
  | confirm k seq => exact advances_confirmEntry e seq

variable {j : Journal} {c : JournalCall} {k : StreamKey}

theorem journalFind_some {i : ℕ} {e : JournalEntry} (h : journalFind j k = some (i, e)) :
    j.entries[i]? = some e ∧ e.key = k :=
  Lib.lastRow_some h

/-- **A call moves the position of its own stream alone.** -/
theorem position_journalStep_ne (hk : c.key ≠ k) :
    position (journalStep j c).2 k = position j k := by
  have hcase := journalStep_cases j c
  generalize journalStep j c = r at hcase ⊢
  cases hcase with
  | refused hne => rfl
  | @wrote i e hfind =>
    obtain ⟨hi, hkey⟩ := journalFind_some hfind
    have hset : journalFind (writeEntry j i (c.onEntry e)).2 k = journalFind j k :=
      Lib.lastRow_set_ne hi (by rw [hkey]; exact hk)
        (by rw [(advances_onEntry c e).key, hkey]; exact hk)
    unfold position
    rw [hset]
  | @opened seq hc hnone =>
    have hkey : (openedEntry c.key seq).key = c.key := by
      unfold openedEntry
      split_ifs <;> rfl
    have happ : journalFind { j with entries := j.entries ++ [openedEntry c.key seq] } k =
        journalFind j k := Lib.lastRow_concat_ne (by rw [hkey]; exact hk)
    unfold position
    rw [happ]

/-! ## Every reachable state -/

/-- A call leaves every entry in its place, and advanced. -/
theorem advances_journalStep {i : ℕ} {e : JournalEntry} (hi : j.entries[i]? = some e) :
    ∃ e', (journalStep j c).2.entries[i]? = some e' ∧ Advances e e' := by
  have hcase := journalStep_cases j c
  generalize journalStep j c = r at hcase ⊢
  cases hcase with
  | refused hne => exact ⟨e, hi, .refl e⟩
  | @wrote n d hfind =>
    obtain ⟨hn, -⟩ := journalFind_some hfind
    show ∃ e', (j.entries.set n (c.onEntry d).2)[i]? = some e' ∧ _
    by_cases hni : n = i
    · subst hni
      obtain rfl : d = e := Option.some.inj (hn.symm.trans hi)
      have hlt := (List.getElem?_eq_some_iff.1 hi).1
      exact ⟨_, by rw [List.getElem?_set_self hlt], advances_onEntry c d⟩
    · exact ⟨e, by rw [List.getElem?_set_ne hni, hi], .refl e⟩
  | opened hc hnone =>
    have hlt := (List.getElem?_eq_some_iff.1 hi).1
    exact ⟨e, by rw [List.getElem?_append_left hlt, hi], .refl e⟩

/-- No entry of the journal has applied more than it received. -/
def AppliedReceived (j : Journal) : Prop := ∀ e ∈ j.entries, e.applied ≤ e.received

theorem AppliedReceived.step (h : AppliedReceived j) : AppliedReceived (journalStep j c).2 := by
  have hcase := journalStep_cases j c
  generalize journalStep j c = r at hcase ⊢
  cases hcase with
  | refused hne => exact h
  | @wrote n d hfind =>
    obtain ⟨hn, -⟩ := journalFind_some hfind
    intro e he
    rcases List.mem_or_eq_of_mem_set he with he | rfl
    · exact h e he
    · exact (advances_onEntry c d).applied (h d (List.mem_of_getElem? hn))
  | @opened seq hc hnone =>
    intro e he
    rcases List.mem_append.1 he with he | he
    · exact h e he
    · rw [List.mem_singleton.1 he]
      unfold openedEntry
      split_ifs
      · exact UInt64.le_refl _
      · exact UInt64.zero_le

theorem appliedReceived_run {capacity : ℕ} (hinit : journalInit capacity = .ok j)
    (calls : List JournalCall) : AppliedReceived (journalRun j calls) := by
  have hempty : j.entries = [] := by rw [journalInit_ok hinit]
  exact Lib.foldl_induction (P := AppliedReceived) (fun _ _ _ hs => hs.step)
    fun e he => absurd (hempty ▸ he) (by simp)

end Record
end Fuzznet
