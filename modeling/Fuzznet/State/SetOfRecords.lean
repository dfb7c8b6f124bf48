/-
# A state answers by the set of its records

Records are presented as they come, in any order and as often as they like, each by
`fzn_state_apply` or, marked as a clear, by `fzn_state_clear`.  Where each subject and kind
has one writer and no two records of it share a sequence number, what is held is a fact of
the set presented (`Resolved`): a cell for each subject and kind, from the latest of its
records.  One call moves it from a set to the set with the record in it
(`Resolved.present`), so the run does (`resolved_run`), unless a call found no room or a
tombstone was let go for it.

`state_answers_of_set` reads the answers off that, and adds what every state of every run
of the four calls keeps, whatever the writers are.
-/

import Fuzznet.Lib.Latest
import Fuzznet.State.Cells
import Mathlib.Data.Set.Card

namespace Fuzznet
namespace State

open Wire Record Lib
open Notes (recordSubject recordKind)

variable {sets : RecordView → Bool} {A : Set RecordView} {st : StateTable} {r : RecordView}
variable {capacity : ℕ} {offers : List RecordView}

/-- The latest record of its subject and kind. -/
abbrev LatestCell (A : Set RecordView) (r : RecordView) : Prop :=
  Latest cellKeyOf (fun q => q.seq.toNat) A r

/-- Each subject and kind has records of one writer. -/
def OneWriter (A : Set RecordView) : Prop :=
  ∀ r ∈ A, ∀ q ∈ A, cellKeyOf r = cellKeyOf q → r.key = q.key

/-- No two records of a subject and kind share a sequence number. -/
abbrev OneAtSeq (A : Set RecordView) : Prop := OneAtRank cellKeyOf (fun q => q.seq.toNat) A

/-- The call a record is presented by: set or clear. -/
def presentCall (sets : RecordView → Bool) (r : RecordView) : StateCall :=
  if sets r then .apply r else .clear r

/-- The state behind the records presented. -/
def presentRun (sets : RecordView → Bool) (st : StateTable) (offers : List RecordView) :
    StateTable :=
  stateRun st (offers.map (presentCall sets))

theorem presentStep_eq_put (sets : RecordView → Bool) (st : StateTable) (r : RecordView) :
    stateStep st (presentCall sets r) = put st r false (sets r) := by
  unfold presentCall
  cases sets r <;> rfl

theorem presentRun_concat (sets : RecordView → Bool) (st : StateTable) (offers : List RecordView)
    (r : RecordView) : presentRun sets st (offers ++ [r]) =
      (put (presentRun sets st offers) r false (sets r)).2 := by
  rw [← presentStep_eq_put, presentRun, List.map_append, stateRun, List.foldl_append]
  rfl

/-! ## One record more -/

/-- **The cells are the latest of each subject and kind**, and nothing else. -/
structure Resolved (sets : RecordView → Bool) (A : Set RecordView) (st : StateTable) : Prop where
  sound : Sound st
  cells : ∀ e, e ∈ st.entries ↔ ∃ r, LatestCell A r ∧ e = storeEntry r (sets r)

theorem Resolved.find_none (h : Resolved sets A st) (hfin : A.Finite)
    (hnone : stateFind st (cellKeyOf r) = none) : ∀ q ∈ A, cellKeyOf q ≠ cellKeyOf r := by
  intro q hq heq
  obtain ⟨best, hbest, hkey⟩ : ∃ best, LatestCell A best ∧ cellKeyOf best = cellKeyOf q :=
    exists_latest hfin hq
  refine lastRow_eq_none_iff.1 hnone _ ((h.cells _).2 ⟨best, hbest, rfl⟩) ?_
  rw [storeEntry_key, hkey, heq]

/-- The first record of its subject and kind opens a cell. -/
theorem Resolved.added (h : Resolved sets A st) (hnone : stateFind st (cellKeyOf r) = none)
    (hnew : ∀ q ∈ A, cellKeyOf q ≠ cellKeyOf r) (hroom : st.entries.length < st.capacity) :
    Resolved sets (insert r A) { st with entries := st.entries ++ [storeEntry r (sets r)] } := by
  refine ⟨⟨?_, nodup_concat_of_lastRow h.sound.nodup hnone⟩, fun e => ?_⟩
  · rw [List.length_append]
    exact hroom
  have hself : LatestCell (insert r A) r :=
    latest_insert_self fun q hq hqr => absurd hqr (hnew q hq)
  rw [List.mem_append, List.mem_singleton, h.cells]
  constructor
  · rintro (⟨q, hq, rfl⟩ | rfl)
    · exact ⟨q, (latest_insert_ne (hnew q hq.mem)).2 hq, rfl⟩
    · exact ⟨r, hself, rfl⟩
  · rintro ⟨q, hq, rfl⟩
    rcases Set.mem_insert_iff.1 hq.mem with rfl | hmem
    · exact Or.inr rfl
    · exact Or.inl ⟨q, (latest_insert_ne (hnew q hmem)).1 hq, rfl⟩

/-- A later record goes over the cell of the one before it. -/
theorem Resolved.wrote (h : Resolved sets A st) {i : ℕ} {q : RecordView} (hq : LatestCell A q)
    (hfind : stateFind st (cellKeyOf r) = some (i, storeEntry q (sets q)))
    (hone : OneAtSeq (insert r A)) (hlt : q.seq < r.seq) :
    Resolved sets (insert r A)
      { st with entries := st.entries.set i (storeEntry r (sets r)) } := by
  obtain ⟨hi, hkey⟩ := lastRow_some hfind
  have hself : LatestCell (insert r A) r := latest_insert_gt hq hkey (UInt64.lt_iff_toNat_lt.1 hlt)
  refine ⟨⟨by simpa using h.sound.room, ?_⟩, fun e => ?_⟩
  · rw [map_set_of_key hi (hkey.trans (storeEntry_key r _).symm)]
    exact h.sound.nodup
  rw [mem_set_lastRow h.sound.nodup hfind (storeEntry_key r _), h.cells]
  constructor
  · rintro (rfl | ⟨⟨p, hp, rfl⟩, hne⟩)
    · exact ⟨r, hself, rfl⟩
    · exact ⟨p, (latest_insert_ne hne).2 hp, rfl⟩
  · rintro ⟨p, hp, rfl⟩
    by_cases hpr : cellKeyOf p = cellKeyOf r
    · exact Or.inl (by rw [hp.eq hone hself hpr])
    · exact Or.inr ⟨⟨p, (latest_insert_ne hpr).1 hp, rfl⟩, hpr⟩

/-- **One record presented** moves what is held from a set to the set with the record in
it, unless the state was full or forgot. -/
theorem Resolved.present (h : Resolved sets A st) (hfin : A.Finite)
    (hwriter : OneWriter (insert r A)) (hone : OneAtSeq (insert r A))
    (hfull : (put st r false (sets r)).1 ≠ .full) (hzero : st.forgotten = 0)
    (hforgot : (put st r false (sets r)).2.forgotten = 0) :
    Resolved sets (insert r A) (put st r false (sets r)).2 := by
  have hsound := h.sound.usable
  cases hfind : stateFind st (cellKeyOf r) with
  | none =>
    rcases @put_none st r false (sets r) hsound hfind with heq | ⟨st', hslot, heq⟩
    · exact absurd (congrArg Prod.fst heq) hfull
    rw [heq] at hforgot ⊢
    rcases slot_cases hslot with ⟨hroom, rfl⟩ | ⟨i, old, -, -, rfl⟩
    · exact h.added hfind (h.find_none hfin hfind) hroom
    · have hone : st.forgotten + 1 = 0 := hforgot
      rw [hzero] at hone
      exact absurd hone (by decide)
  | some p =>
    obtain ⟨i, e⟩ := p
    obtain ⟨hmem, hkey⟩ := h.sound.find_iff.1 ⟨i, hfind⟩
    obtain ⟨q, hq, rfl⟩ := (h.cells e).1 hmem
    have hkey' : cellKeyOf q = cellKeyOf r := hkey
    have hsame : (storeEntry q (sets q)).writer = r.key :=
      hwriter q (Set.mem_insert_of_mem r hq.mem) r (Set.mem_insert r A) hkey'
    by_cases hle : r.seq ≤ q.seq
    · rw [put_stale hsound hfind hsame hle]
      refine ⟨h.sound, fun e => ?_⟩
      rw [h.cells]
      refine exists_congr fun p => and_congr_left fun _ => ?_
      exact (latest_insert_iff hone hq hkey' (UInt64.le_iff_toNat_le.1 hle)).symm
    · have hlt : q.seq < r.seq := UInt64.not_le.1 hle
      rw [put_later hsound hfind hsame hlt]
      exact h.wrote hq hfind hone hlt

/-- **The run.** -/
theorem resolved_run (hinit : stateInit capacity = .ok st) (hwriter : OneWriter {r | r ∈ offers})
    (hone : OneAtSeq {r | r ∈ offers})
    (hfull : ∀ pre r, pre ++ [r] <+: offers →
      (stateStep (presentRun sets st pre) (presentCall sets r)).1 ≠ .full)
    (hforgot : ∀ pre, pre <+: offers → stateForgotten (presentRun sets st pre) = 0) :
    Resolved sets {r | r ∈ offers} (presentRun sets st offers) := by
  have hsound : ∀ pre, Sound (presentRun sets st pre) := fun pre => sound_stateRun hinit _
  have hzero : ∀ pre, pre <+: offers → (presentRun sets st pre).forgotten = 0 := by
    intro pre hle
    have hf := hforgot pre hle
    rwa [stateForgotten, if_pos (hsound pre).usable] at hf
  refine prefix_induction
    (P := fun pre => Resolved sets {r | r ∈ pre} (presentRun sets st pre)) ?_ fun pre r hle ih => ?_
  · rw [presentRun, List.map_nil, stateRun, List.foldl_nil, stateInit_ok hinit]
    refine ⟨⟨Nat.zero_le _, List.nodup_nil⟩, fun e => ?_⟩
    constructor
    · intro he
      cases he
    · rintro ⟨q, hq, -⟩
      cases hq.mem
  · have hset : {q | q ∈ pre ++ [r]} = insert r {q | q ∈ pre} := by
      ext q
      simp [or_comm]
    have hsub : insert r {q | q ∈ pre} ⊆ {q | q ∈ offers} := by
      rw [← hset]
      exact fun q hq => hle.subset hq
    have hpre : pre <+: offers := (List.prefix_append pre [r]).trans hle
    have hnotFull := hfull pre r hle
    rw [presentStep_eq_put] at hnotFull
    have hlast := hzero (pre ++ [r]) hle
    rw [presentRun_concat] at hlast ⊢
    rw [hset]
    exact ih.present (List.finite_toSet pre) (fun a ha b hb => hwriter a (hsub ha) b (hsub hb))
      (hone.mono hsub) hnotFull (hzero pre hpre) hlast

/-! ## What is answered -/

/-- **The answers of a set of records:** of each subject and kind one cell, with the writer
and the sequence number of the highest record; its body or nothing; and how many are set. -/
structure Answers (sets : RecordView → Bool) (A : Set RecordView) (st : StateTable) : Prop where
  cell : ∀ r ∈ A, ∃ best, LatestCell A best ∧ cellKeyOf best = cellKeyOf r ∧
    ∃ e, (st.entries.filter fun e => decide (e.key = cellKeyOf r)) = [e] ∧
      e.writer = best.key ∧ e.seq = best.seq
  only : ∀ e ∈ st.entries, ∃ r ∈ A, e.key = cellKeyOf r
  get : ∀ best, LatestCell A best →
    (stateGet st (recordSubject best) (recordKind best)).bind StateEntry.body =
      if sets best then some (recordBody best) else none
  getNone : ∀ best, LatestCell A best → sets best = false →
    stateGet st (recordSubject best) (recordKind best) = none
  count : stateCount st =
    {k | ∃ best, LatestCell A best ∧ sets best = true ∧ cellKeyOf best = k}.ncard

theorem Resolved.find (h : Resolved sets A st) {best : RecordView} (hbest : LatestCell A best) :
    ∃ i, stateFind st (cellKeyOf best) = some (i, storeEntry best (sets best)) :=
  h.sound.find_iff.2 ⟨(h.cells _).2 ⟨best, hbest, rfl⟩, rfl⟩

theorem Resolved.stateGet (h : Resolved sets A st) {best : RecordView}
    (hbest : LatestCell A best) : stateGet st (recordSubject best) (recordKind best) =
      if sets best then some (storeEntry best true) else none := by
  obtain ⟨i, hfind⟩ := h.find hbest
  have hfind' : stateFind st (recordSubject best, recordKind best) =
    some (i, storeEntry best (sets best)) := hfind
  unfold State.stateGet
  rw [if_neg (by simp [h.sound.usable]), hfind']
  cases hs : sets best <;> simp

theorem Resolved.count (h : Resolved sets A st) : stateCount st =
    {k | ∃ best, LatestCell A best ∧ sets best = true ∧ cellKeyOf best = k}.ncard := by
  have hnodup : ((st.entries.filter StateEntry.live).map StateEntry.key).Nodup :=
    h.sound.nodup.sublist (List.filter_sublist.map _)
  have hset : {k | ∃ best, LatestCell A best ∧ sets best = true ∧ cellKeyOf best = k} =
      ((st.entries.filter StateEntry.live).map StateEntry.key).toFinset := by
    ext k
    simp only [Set.mem_ofPred_eq, List.coe_toFinset, List.mem_map, List.mem_filter]
    constructor
    · rintro ⟨best, hbest, hs, rfl⟩
      exact ⟨storeEntry best (sets best), ⟨(h.cells _).2 ⟨best, hbest, rfl⟩,
        (storeEntry_live _ _).trans hs⟩, rfl⟩
    · rintro ⟨e, ⟨he, hlive⟩, rfl⟩
      obtain ⟨best, hbest, rfl⟩ := (h.cells e).1 he
      exact ⟨best, hbest, (storeEntry_live _ _).symm.trans hlive, rfl⟩
  rw [hset, Set.ncard_coe_finset, List.toFinset_card_of_nodup hnodup, List.length_map,
    stateCount, if_neg (by simp [h.sound.usable]), List.countP_eq_length_filter]

theorem Resolved.answers (h : Resolved sets A st) (hfin : A.Finite) : Answers sets A st := by
  refine ⟨fun r hr => ?_, fun e he => ?_, fun best hbest => ?_, fun best hbest hs => ?_, h.count⟩
  · obtain ⟨best, hbest, hkey⟩ : ∃ best, LatestCell A best ∧ cellKeyOf best = cellKeyOf r :=
      exists_latest hfin hr
    refine ⟨best, hbest, hkey, storeEntry best (sets best), ?_, rfl, rfl⟩
    have hmem := (h.cells _).2 ⟨best, hbest, rfl⟩
    rw [← hkey]
    exact filter_key_of_nodup h.sound.nodup hmem
  · obtain ⟨best, hbest, rfl⟩ := (h.cells e).1 he
    exact ⟨best, hbest.mem, rfl⟩
  · rw [h.stateGet hbest]
    cases sets best <;> rfl
  · rw [h.stateGet hbest, hs]
    rfl

/-- What the cells of a state keep under one more call, whoever wrote them. -/
structure CallKeeps (s : StateTable) (c : StateCall) : Prop where
  refused : (stateStep s c).1.refuses = true → (stateStep s c).2.entries = s.entries
  stranger : ∀ e ∈ s.entries, e.key = cellKeyOf c.record → e.writer ≠ c.record.key →
    c.overrides = false →
    stateStep s c = (if e.issuer ≠ c.record.issuer then .conflict else .crossStream, s)
  stale : ∀ e ∈ s.entries, e.key = cellKeyOf c.record → e.writer = c.record.key →
    c.record.seq ≤ e.seq → stateStep s c = (.stale, s)

theorem Sound.callKeeps (h : Sound st) (c : StateCall) : CallKeeps st c := by
  refine ⟨fun hrefuses => ?_, fun e he hkey hne hover => ?_, fun e he hkey heq hle => ?_⟩
  · rw [stateStep_eq_put] at hrefuses ⊢
    rw [put_refused hrefuses]
  · obtain ⟨i, hfind⟩ := h.find_iff.2 ⟨he, hkey⟩
    rw [stateStep_eq_put, hover]
    exact put_stranger h.usable hfind hne
  · obtain ⟨i, hfind⟩ := h.find_iff.2 ⟨he, hkey⟩
    rw [stateStep_eq_put]
    exact put_stale h.usable hfind heq hle

/-- **A state's answer is a function of the set of records.**  Records of one writer for each
subject and kind, no two of it at one sequence number, each set or cleared and presented at
least once, in any order and with any repetitions, while no call finds the state full and
none forgets: the answers are those of the set.  And in every state a run of the four calls
comes to, no two cells share subject and kind, a call that refuses leaves every cell, a
stranger's record is refused unless by override, and one not later than its writer's cell
is stale. -/
theorem state_answers_of_set (hinit : stateInit capacity = .ok st) :
    (∀ (A : Set RecordView) (sets : RecordView → Bool) (offers : List RecordView),
      (∀ r, r ∈ offers ↔ r ∈ A) → OneWriter A →
      (∀ r ∈ A, ∀ q ∈ A, cellKeyOf r = cellKeyOf q → r.seq = q.seq → r = q) →
      (∀ pre r, pre ++ [r] <+: offers →
        (stateStep (presentRun sets st pre) (presentCall sets r)).1 ≠ .full) →
      (∀ pre, pre <+: offers → stateForgotten (presentRun sets st pre) = 0) →
      Answers sets A (presentRun sets st offers)) ∧
    ∀ calls : List StateCall, ((stateRun st calls).entries.map StateEntry.key).Nodup ∧
      ∀ c, CallKeeps (stateRun st calls) c := by
  refine ⟨fun A sets offers hset hwriter hseq hfull hforgot => ?_, fun calls => ?_⟩
  · obtain rfl : {r | r ∈ offers} = A := Set.ext hset
    have hone : OneAtSeq {r | r ∈ offers} := fun r hr q hq hkey hrank =>
      hseq r hr q hq hkey (UInt64.toNat_inj.1 hrank)
    exact (resolved_run hinit hwriter hone hfull hforgot).answers (List.finite_toSet offers)
  · have hsound := sound_stateRun hinit calls
    exact ⟨hsound.nodup, hsound.callKeeps⟩

/-! ## A grant and its revocation -/

/-- A record of issuer 1 on stream 7 about subject 5 and kind 9, at `seq`, without a body. -/
def settingBytes (seq : ℕ) : Bytes :=
  [1, 130] ++ putBe 32 1 ++ putBe 32 5 ++ putBe 4 7 ++ putBe 4 9 ++ putBe 8 seq ++ putBe 32 3 ++
    putBe 8 0 ++ putBe 2 0 ++ putBe 64 8

/-- The grant, at sequence number 5. -/
def grant : RecordView := ⟨settingBytes 5, by decide +kernel⟩

/-- Its revocation, at 10. -/
def revocation : RecordView := ⟨settingBytes 10, by decide +kernel⟩

/-- The grant sets and the revocation clears. -/
def grantSets (r : RecordView) : Bool := decide (r.bytes = settingBytes 5)

theorem mem_grant_revocation {r : RecordView} (h : r ∈ [revocation, grant, revocation]) :
    r = revocation ∨ r = grant := by
  rcases List.mem_cons.1 h with rfl | h
  · exact Or.inl rfl
  · rcases List.mem_cons.1 h with rfl | h
    · exact Or.inr rfl
    · exact Or.inl (List.mem_singleton.1 h)

/-- The revocation outruns the grant, and comes again: the subject reads as unset. -/
theorem state_answers_of_set_outrun :
    Answers grantSets {r | r ∈ [revocation, grant, revocation]}
      (presentRun grantSets ⟨[], 1, 0⟩ [revocation, grant, revocation]) := by
  have hseqs : revocation.seq ≠ grant.seq := by decide
  refine (@state_answers_of_set ⟨[], 1, 0⟩ 1 rfl).1 _ grantSets
    [revocation, grant, revocation] (fun r => Iff.rfl) ?_ ?_ ?_ ?_
  · intro r hr q hq _
    rcases mem_grant_revocation hr with rfl | rfl <;>
      rcases mem_grant_revocation hq with rfl | rfl <;> decide
  · intro r hr q hq _ hseq
    rcases mem_grant_revocation hr with rfl | rfl <;>
      rcases mem_grant_revocation hq with rfl | rfl
    · rfl
    · exact absurd hseq hseqs
    · exact absurd hseq.symm hseqs
    · rfl
  · refine forall_prefix fun n hn => ?_
    have hn' : n < 3 := hn
    obtain rfl | rfl | rfl : n = 0 ∨ n = 1 ∨ n = 2 := by omega
    · show (stateStep (presentRun grantSets ⟨[], 1, 0⟩ [])
        (presentCall grantSets revocation)).1 ≠ .full
      decide
    · show (stateStep (presentRun grantSets ⟨[], 1, 0⟩ [revocation])
        (presentCall grantSets grant)).1 ≠ .full
      decide +kernel
    · show (stateStep (presentRun grantSets ⟨[], 1, 0⟩ [revocation, grant])
        (presentCall grantSets revocation)).1 ≠ .full
      decide +kernel
  · rintro pre hle
    rw [List.prefix_iff_eq_take.1 hle]
    have hlen : pre.length ≤ 3 := hle.length_le
    generalize pre.length = n at hlen
    obtain rfl | rfl | rfl | rfl : n = 0 ∨ n = 1 ∨ n = 2 ∨ n = 3 := by omega
    · decide
    · decide
    · decide +kernel
    · decide +kernel

end State
end Fuzznet
