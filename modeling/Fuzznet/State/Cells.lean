/-
# What is true now, from the records admitted so far

`state/state.c`: a cell for each subject and kind, holding the writer that set it, its
sequence number and the value, or absence for a tombstone.  The four entry points are one
decision table (`put`), on two axes: whether a value or absence is written, and whether
another writer's cell may be taken over.

| the cell | the record | answer |
| --- | --- | --- |
| none | sets | stored, `OK` |
| none | clears | a tombstone, `ABSENT` |
| another issuer's | any | `CONFLICT`, or stored by override |
| another stream's | any | `CROSS_STREAM`, or stored by override |
| the writer's | later | stored, `OK` |
| the writer's | not later | `STALE` |

A cell is found by the last match of a scan and written where it was found.  `PutCase` is
what a call can do; of every state reached, no two cells share subject and kind
(`sound_stateRun`).
-/

import Fuzznet.Lib.LastRow
import Fuzznet.Lib.Runs
import Fuzznet.Notes.Store
import Fuzznet.Wire.Codec

namespace Fuzznet
namespace State

open Wire Record Lib
open Notes (recordSubject recordKind)

/-- `fzn_state_err_t`. -/
inductive StateErr
  | ok
  | malformed
  | full
  | stale
  | conflict
  | absent
  | crossStream
  deriving DecidableEq, Repr

/-- A code whose name carries `ERR_`: nothing was stored. -/
def StateErr.refuses : StateErr → Bool
  | .ok | .absent => false
  | .malformed | .full | .stale | .conflict | .crossStream => true

/-- What a cell is found by: a subject and a kind. -/
abbrev CellKey := Bytes32 × ℕ

/-- `fzn_record_body`. -/
def recordBody (r : RecordView) : Bytes := (r.bytes.drop recordHeaderLen).take (getBe r.bytes 122 2)

/-- The subject and kind a record is about. -/
def cellKeyOf (r : RecordView) : CellKey := (recordSubject r, recordKind r)

/-- `fzn_state_entry_t`; `body` is none for a tombstone. -/
structure StateEntry where
  subject : Bytes32
  kind : ℕ
  stream : UInt32
  issuer : Key
  seq : UInt64
  body : Option Bytes
  deriving DecidableEq, Repr

namespace StateEntry

/-- What the cell is found by. -/
def key (e : StateEntry) : CellKey := (e.subject, e.kind)

/-- The writer that holds the cell. -/
def writer (e : StateEntry) : StreamKey := ⟨e.issuer, e.stream⟩

/-- `live`: 0 for a tombstone. -/
def live (e : StateEntry) : Bool := e.body.isSome

end StateEntry

/-- `fzn_state_t`: the cells in use and the room the caller gave. -/
structure StateTable where
  entries : List StateEntry
  capacity : ℕ
  forgotten : UInt64
  deriving DecidableEq, Repr

/-- `fzn_state_init` over an array of `capacity` entries. -/
def stateInit (capacity : ℕ) : Except StateErr StateTable :=
  if capacity = 0 then .error .malformed else .ok ⟨[], capacity, 0⟩

/-- `fzn_state_sound`, and `usable`. -/
def stateSound (st : StateTable) : Bool := decide (st.entries.length ≤ st.capacity)

/-- `find`: the last cell of the subject and kind, a tombstone too, and its index. -/
def stateFind (st : StateTable) (k : CellKey) : Option (ℕ × StateEntry) :=
  lastRow StateEntry.key k st.entries

/-- `store`: the cell a record leaves, its value or absence. -/
def storeEntry (r : RecordView) (live : Bool) : StateEntry where
  subject := recordSubject r
  kind := recordKind r
  stream := r.stream
  issuer := r.issuer
  seq := r.seq
  body := if live then some (recordBody r) else none

/-- `slot`, with the cell stored there: behind the last one while there is room, else over
the first tombstone, which is forgotten. -/
def slot (st : StateTable) (e : StateEntry) : Option StateTable :=
  if st.entries.length < st.capacity then some { st with entries := st.entries ++ [e] }
  else match st.entries.findIdx? fun e => !e.live with
    | some i => some { st with entries := st.entries.set i e, forgotten := st.forgotten + 1 }
    | none => none

/-- `put`: the decision table. -/
def put (st : StateTable) (r : RecordView) (override live : Bool) : StateErr × StateTable :=
  if stateSound st = false then (.malformed, st)
  else if r.seq = 0 then (.malformed, st)
  else match stateFind st (cellKeyOf r) with
    | none => match slot st (storeEntry r live) with
      | none => (.full, st)
      | some st' => (if live then .ok else .absent, st')
    | some (i, e) =>
      if e.issuer ≠ r.issuer then
        if override = false then (.conflict, st)
        else (.ok, { st with entries := st.entries.set i (storeEntry r live) })
      else if e.stream ≠ r.stream then
        if override = false then (.crossStream, st)
        else (.ok, { st with entries := st.entries.set i (storeEntry r live) })
      else if r.seq ≤ e.seq then (.stale, st)
      else (.ok, { st with entries := st.entries.set i (storeEntry r live) })

/-- `fzn_state_apply`. -/
def stateApply (st : StateTable) (r : RecordView) : StateErr × StateTable := put st r false true

/-- `fzn_state_resolve`. -/
def stateResolve (st : StateTable) (r : RecordView) : StateErr × StateTable := put st r true true

/-- `fzn_state_clear`. -/
def stateClear (st : StateTable) (r : RecordView) : StateErr × StateTable := put st r false false

/-- `fzn_state_resolve_clear`. -/
def stateResolveClear (st : StateTable) (r : RecordView) : StateErr × StateTable :=
  put st r true false

/-- `fzn_state_get`: no tombstone. -/
def stateGet (st : StateTable) (subject : Bytes32) (kind : ℕ) : Option StateEntry :=
  if stateSound st = false then none
  else match stateFind st (subject, kind) with
    | none => none
    | some (_, e) => if e.live then some e else none

/-- `fzn_state_count`. -/
def stateCount (st : StateTable) : ℕ :=
  if stateSound st = false then 0 else st.entries.countP StateEntry.live

/-- `fzn_state_forgotten`. -/
def stateForgotten (st : StateTable) : UInt64 := if stateSound st then st.forgotten else 0

/-! ## Calls and runs -/

/-- One call on a state. -/
inductive StateCall
  | apply (r : RecordView)
  | resolve (r : RecordView)
  | clear (r : RecordView)
  | resolveClear (r : RecordView)

namespace StateCall

/-- The record a call is given. -/
def record : StateCall → RecordView
  | .apply r | .resolve r | .clear r | .resolveClear r => r

/-- Whether another writer's cell may be taken over. -/
def overrides : StateCall → Bool
  | .apply _ | .clear _ => false
  | .resolve _ | .resolveClear _ => true

/-- Whether a value is written. -/
def live : StateCall → Bool
  | .apply _ | .resolve _ => true
  | .clear _ | .resolveClear _ => false

end StateCall

/-- The answer of a call and the state behind it. -/
def stateStep (st : StateTable) : StateCall → StateErr × StateTable
  | .apply r => stateApply st r
  | .resolve r => stateResolve st r
  | .clear r => stateClear st r
  | .resolveClear r => stateResolveClear st r

/-- The state behind a run of calls. -/
def stateRun (st : StateTable) (calls : List StateCall) : StateTable :=
  calls.foldl (fun st c => (stateStep st c).2) st

/-! ## What a call does -/

section Put

variable {st : StateTable} {r : RecordView} {override live : Bool} {capacity : ℕ}

theorem stateInit_ok (h : stateInit capacity = .ok st) : st = ⟨[], capacity, 0⟩ := by
  unfold stateInit at h
  obtain ⟨-, h⟩ := past_check h nofun
  exact (Except.ok.inj h).symm

theorem stateStep_eq_put (st : StateTable) (c : StateCall) :
    stateStep st c = put st c.record c.overrides c.live := by
  cases c <;> rfl

@[simp] theorem storeEntry_key (r : RecordView) (live : Bool) :
    (storeEntry r live).key = cellKeyOf r := rfl

@[simp] theorem storeEntry_live (r : RecordView) (live : Bool) :
    (storeEntry r live).live = live := by
  cases live <;> rfl

/-- A record that was opened has a sequence number. -/
theorem seq_ne_zero (r : RecordView) : r.seq ≠ 0 := by
  intro hzero
  have hcheck := r.isOpen
  have hlt : getBe r.bytes 74 8 < 2 ^ 64 := getBe_lt r.bytes 74 8
  have hseq : getBe r.bytes 74 8 = 0 := by
    have hnat := congrArg UInt64.toNat hzero
    rwa [RecordView.seq, UInt64.toNat_ofNat', Nat.mod_eq_of_lt hlt] at hnat
  unfold recordCheck at hcheck
  split_ifs at hcheck

/-- What a call can answer, and the state it leaves. -/
inductive PutCase (st : StateTable) (r : RecordView) (override live : Bool) :
    StateErr × StateTable → Prop
  | refused {err : StateErr} (hrefuses : err.refuses = true) :
      PutCase st r override live (err, st)
  | wrote {i : ℕ} {e : StateEntry} (hfind : stateFind st (cellKeyOf r) = some (i, e))
      (hwriter : override = false → e.writer = r.key) (hseq : e.writer = r.key → e.seq < r.seq) :
      PutCase st r override live
        (.ok, { st with entries := st.entries.set i (storeEntry r live) })
  | added {err : StateErr} (hnone : stateFind st (cellKeyOf r) = none)
      (hroom : st.entries.length < st.capacity) (hanswer : err.refuses = false) :
      PutCase st r override live (err, { st with entries := st.entries ++ [storeEntry r live] })
  | recycled {err : StateErr} {i : ℕ} {e : StateEntry}
      (hnone : stateFind st (cellKeyOf r) = none) (hi : st.entries[i]? = some e)
      (htomb : e.live = false) (hanswer : err.refuses = false) :
      PutCase st r override live
        (err, ⟨st.entries.set i (storeEntry r live), st.capacity, st.forgotten + 1⟩)

theorem slot_cases {e : StateEntry} {st' : StateTable} (h : slot st e = some st') :
    (st.entries.length < st.capacity ∧ st' = { st with entries := st.entries ++ [e] }) ∨
      ∃ i old, st.entries[i]? = some old ∧ old.live = false ∧
        st' = ⟨st.entries.set i e, st.capacity, st.forgotten + 1⟩ := by
  unfold slot at h
  split at h
  · next hroom => exact Or.inl ⟨hroom, (Option.some.inj h).symm⟩
  · split at h
    · next i hi =>
        obtain ⟨hlt, htomb, -⟩ := List.findIdx?_eq_some_iff_getElem.1 hi
        refine Or.inr ⟨i, st.entries[i], List.getElem?_eq_getElem hlt, ?_,
          (Option.some.inj h).symm⟩
        simpa using htomb
    · cases h

/-- **What a call does.** -/
theorem put_cases (st : StateTable) (r : RecordView) (override live : Bool) :
    PutCase st r override live (put st r override live) := by
  unfold put
  split
  · exact .refused rfl
  split
  · exact .refused rfl
  split
  · next hnone =>
      split
      · exact .refused rfl
      · next st' hslot =>
          have hanswer : (if live then StateErr.ok else .absent).refuses = false := by
            cases live <;> rfl
          obtain ⟨hroom, rfl⟩ | ⟨i, old, hi, htomb, rfl⟩ := slot_cases hslot
          · exact .added hnone hroom hanswer
          · exact .recycled hnone hi htomb hanswer
  next i e hfind =>
  have hover : ∀ {err : StateErr}, err.refuses = true → e.writer ≠ r.key →
      PutCase st r override live (if override = false then (err, st)
        else (.ok, { st with entries := st.entries.set i (storeEntry r live) })) := by
    intro err hrefuses hne
    split
    · exact .refused hrefuses
    · next ho => exact .wrote hfind (fun hf => absurd hf ho) fun heq => absurd heq hne
  split
  · next hissuer => exact hover rfl fun heq => hissuer (congrArg StreamKey.issuer heq)
  next hissuer =>
  split
  · next hstream => exact hover rfl fun heq => hstream (congrArg StreamKey.stream heq)
  next hstream =>
  split
  · exact .refused rfl
  · next hseq =>
      have hwriter : e.writer = r.key := by
        rw [StateEntry.writer, not_not.1 hissuer, not_not.1 hstream, RecordView.key]
      exact .wrote hfind (fun _ => hwriter) fun _ => UInt64.not_le.1 hseq

/-- **A code that refuses stored nothing.** -/
theorem put_refused (h : (put st r override live).1.refuses = true) :
    (put st r override live).2 = st := by
  have hcase := put_cases st r override live
  generalize put st r override live = p at h hcase
  cases hcase with
  | refused => rfl
  | wrote => cases h
  | added _ _ hanswer => exact absurd (h.symm.trans hanswer) (by simp)
  | recycled _ _ _ hanswer => exact absurd (h.symm.trans hanswer) (by simp)

section

variable {i : ℕ} {e : StateEntry} (hsound : stateSound st = true)
  (hfind : stateFind st (cellKeyOf r) = some (i, e))
include hsound hfind

/-- **Without override a stranger is refused**, as another issuer or another stream. -/
theorem put_stranger (hne : e.writer ≠ r.key) :
    put st r false live = (if e.issuer ≠ r.issuer then .conflict else .crossStream, st) := by
  unfold put
  rw [if_neg (by simp [hsound]), if_neg (seq_ne_zero r), hfind]
  dsimp only
  by_cases hissuer : e.issuer = r.issuer
  · have hstream : e.stream ≠ r.stream := fun heq => hne (by
      rw [StateEntry.writer, hissuer, heq, RecordView.key])
    simp only [hissuer, hstream, ne_eq, not_true_eq_false, if_false, not_false_eq_true, if_true]
  · simp only [hissuer, ne_eq, not_false_eq_true, if_true]

/-- **What is not later than its writer's cell is stale**, whichever call brings it. -/
theorem put_stale (heq : e.writer = r.key) (hle : r.seq ≤ e.seq) :
    put st r override live = (.stale, st) := by
  obtain ⟨hissuer, hstream⟩ := StreamKey.mk.inj heq
  unfold put
  rw [if_neg (by simp [hsound]), if_neg (seq_ne_zero r), hfind]
  simp only [hissuer, hstream, ne_eq, not_true_eq_false, if_false, hle, if_true]

/-- What is later goes over its writer's cell. -/
theorem put_later (heq : e.writer = r.key) (hlt : e.seq < r.seq) : put st r override live =
      (.ok, { st with entries := st.entries.set i (storeEntry r live) }) := by
  obtain ⟨hissuer, hstream⟩ := StreamKey.mk.inj heq
  have hle : ¬r.seq ≤ e.seq := UInt64.not_le.2 hlt
  unfold put
  rw [if_neg (by simp [hsound]), if_neg (seq_ne_zero r), hfind]
  simp only [hissuer, hstream, ne_eq, not_true_eq_false, if_false, hle]

end

/-- A cell is opened for what has none, while there is a slot. -/
theorem put_none (hsound : stateSound st = true) (hnone : stateFind st (cellKeyOf r) = none) :
    (put st r override live = (.full, st)) ∨ ∃ st', slot st (storeEntry r live) = some st' ∧
      put st r override live = (if live then .ok else .absent, st') := by
  unfold put
  rw [if_neg (by simp [hsound]), if_neg (seq_ne_zero r), hnone]
  cases hslot : slot st (storeEntry r live) with
  | none => exact Or.inl rfl
  | some st' => exact Or.inr ⟨st', rfl, rfl⟩

end Put

/-! ## Every state reached -/

section Reached

variable {st : StateTable} {r : RecordView} {override live : Bool} {capacity : ℕ}

/-- A state as calls leave it: within its array, and one cell for each subject and kind. -/
structure Sound (st : StateTable) : Prop where
  room : st.entries.length ≤ st.capacity
  nodup : (st.entries.map StateEntry.key).Nodup

theorem Sound.usable (h : Sound st) : stateSound st = true := decide_eq_true h.room

theorem Sound.put (h : Sound st) (r : RecordView) (override live : Bool) :
    Sound (put st r override live).2 := by
  have hcase := put_cases st r override live
  generalize State.put st r override live = p at hcase
  cases hcase with
  | refused => exact h
  | wrote hfind =>
    obtain ⟨hi, hkey⟩ := lastRow_some hfind
    refine ⟨by simpa using h.room, ?_⟩
    rw [map_set_of_key hi (hkey.trans (storeEntry_key r live).symm)]
    exact h.nodup
  | added hnone hroom =>
    refine ⟨?_, nodup_concat_of_lastRow h.nodup hnone⟩
    rw [List.length_append]
    exact hroom
  | recycled hnone hi =>
    exact ⟨by simpa using h.room,
      nodup_set_of_lastRow (a := storeEntry r live) h.nodup hnone _⟩

/-- **No two cells share subject and kind**, in any state a run of the four calls comes
to. -/
theorem sound_stateRun (hinit : stateInit capacity = .ok st) (calls : List StateCall) :
    Sound (stateRun st calls) := by
  refine foldl_induction (P := Sound) (fun pre c _ h => ?_) ?_
  · rw [stateStep_eq_put]
    exact h.put _ _ _
  · rw [stateInit_ok hinit]
    exact ⟨Nat.zero_le _, List.nodup_nil⟩

theorem Sound.find_iff (h : Sound st) {k : CellKey} {e : StateEntry} :
    (∃ i, stateFind st k = some (i, e)) ↔ e ∈ st.entries ∧ e.key = k :=
  lastRow_iff_mem h.nodup

end Reached

end State
end Fuzznet
