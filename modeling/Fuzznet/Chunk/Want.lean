/-
# What is still wanted

`fzn_reasm_plan_want` of `chunk/reassembly.c`: the pieces of a half-finished message that
have not come, as ranges to ask for.  The bitmap is walked once, a run of missing pieces is
closed by a piece that came or by the last one, and a run closed is appended in ranges of at
most `max_per_range` (`emitRun`) until the caller's array is full.

`wantedRanges` is the walk with no end to the array: its ranges, end to end, are the missing
pieces in order (`indices_wantedRanges`), and with room for `cap` the walk answers the first
`cap` of them (`scanWant_out`).

The pieces of a message are counted in a `uint16_t` and the walk in an `unsigned`, so nothing
here wraps.  The place of a slot is an `unsigned` here; a table of `2^32` slots is not in
memory.
-/

import Fuzznet.Chunk.RoundTrip

namespace Fuzznet
namespace Chunk

open Wire

/-- `fzn_reasm_range_t`. -/
structure ReasmRange where
  first : ℕ
  count : ℕ
  deriving DecidableEq, Repr

/-- The walk: the ranges written, and the run it is in. -/
structure WantWalk where
  out : List ReasmRange
  first : ℕ
  run : ℕ
  deriving DecidableEq, Repr

/-- `emit_run`, of at most so many ranges: whether the run was written whole. -/
@[grind =] def emitRun (limit cap : ℕ) : ℕ → WantWalk → Bool × WantWalk
  | 0, w => (true, w)
  | fuel + 1, w =>
    if w.run = 0 then (true, w)
    else if cap ≤ w.out.length then (false, w)
    else
      let take := if w.run < limit then w.run else limit
      emitRun limit cap fuel ⟨w.out ++ [⟨w.first, take⟩], w.first + take, w.run - take⟩

/-- The loop of `fzn_reasm_plan_want` over the pieces of a slot. -/
def scanWant (slot : Partial) (limit cap : ℕ) : List ℕ → WantWalk → WantWalk
  | [], w => w
  | i :: is, w =>
    if seenGet slot i = false then
      scanWant slot limit cap is { w with
        first := if w.run = 0 then i else w.first, run := w.run + 1 }
    else
      match emitRun limit cap w.run w with
      | (false, w) => w
      | (true, w) => scanWant slot limit cap is w

/-- `fzn_reasm_plan_want`. -/
def planWant (table : Reasm) (sender : Bytes32) (msg : UInt32) (maxPerRange cap : ℕ) :
    Except ReasmErr (List ReasmRange) :=
  if maxPerRange = 0 then .error .malformed
  else
    match find table sender msg with
    | none => .error .absent
    | some (slot, _) =>
      let w := scanWant slot maxPerRange cap (List.range slot.chunks) ⟨[], 0, 0⟩
      .ok (emitRun maxPerRange cap w.run w).2.out

/-! ## Ranges without end -/

/-- The pieces of a range. -/
@[grind =] def ReasmRange.indices (r : ReasmRange) : List ℕ := List.range' r.first r.count

/-- A run in ranges of at most `limit`, of at most so many. -/
@[grind =] def splitRun (limit : ℕ) : ℕ → ℕ → ℕ → List ReasmRange
  | 0, _, _ => []
  | fuel + 1, first, run =>
    if run = 0 then []
    else ⟨first, min run limit⟩ ::
      splitRun limit fuel (first + min run limit) (run - min run limit)

/-- The ranges of a walk over the pieces `is`, in a run of `run` pieces from `first`. -/
@[grind =] def wantedRanges (slot : Partial) (limit : ℕ) : List ℕ → ℕ → ℕ → List ReasmRange
  | [], first, run => splitRun limit run first run
  | i :: is, first, run =>
    if seenGet slot i = false then
      wantedRanges slot limit is (if run = 0 then i else first) (run + 1)
    else splitRun limit run first run ++ wantedRanges slot limit is (first + run) 0

variable {limit cap : ℕ}

theorem indices_splitRun (hlimit : 1 ≤ limit) {fuel run : ℕ} (hfuel : run ≤ fuel) (first : ℕ) :
    (splitRun limit fuel first run).flatMap ReasmRange.indices = List.range' first run := by
  induction fuel generalizing first run with
  | zero =>
    obtain rfl := Nat.le_zero.1 hfuel
    rfl
  | succ fuel ih =>
    rw [splitRun]
    split_ifs with hrun
    · rw [hrun]
      rfl
    · have hsum : min run limit + (run - min run limit) = run := by omega
      rw [List.flatMap_cons, ih (by omega), ReasmRange.indices, List.range'_append_1, hsum]

theorem count_splitRun (hlimit : 1 ≤ limit) {fuel first run : ℕ} :
    ∀ r ∈ splitRun limit fuel first run, 1 ≤ r.count ∧ r.count ≤ limit := by
  induction fuel generalizing first run with
  | zero => exact fun r hr => absurd hr List.not_mem_nil
  | succ fuel ih =>
    intro r hr
    rw [splitRun] at hr
    split_ifs at hr with hrun
    · cases hr
    · rcases List.mem_cons.1 hr with rfl | hr
      · exact ⟨by show 1 ≤ min run limit; omega, Nat.min_le_right run limit⟩
      · exact ih r hr

/-- **The ranges, end to end, are the missing pieces in order.** -/
theorem indices_wantedRanges (hlimit : 1 ≤ limit) (slot : Partial) (n a first run : ℕ)
    (hrun : run = 0 ∨ first + run = a) :
    (wantedRanges slot limit (List.range' a n) first run).flatMap ReasmRange.indices =
      List.range' first run ++ (List.range' a n).filter fun i => !seenGet slot i := by
  induction n generalizing a first run with
  | zero => rw [List.range'_zero, List.filter_nil, List.append_nil, wantedRanges,
      indices_splitRun hlimit (Nat.le_refl run)]
  | succ n ih =>
    rw [List.range'_succ, wantedRanges]
    split_ifs with hseen hstart
    · -- a run begins
      rw [ih (a + 1) a (run + 1) (.inr (by omega)), List.filter_cons_of_pos (by simp [hseen]),
        hstart]
      rfl
    · rw [ih (a + 1) first (run + 1) (.inr (by omega)),
        List.filter_cons_of_pos (by simp [hseen]), List.range'_concat, Nat.one_mul,
        hrun.resolve_left hstart, List.append_assoc]
      rfl
    · rw [List.flatMap_append, indices_splitRun hlimit (Nat.le_refl run), ih (a + 1) _ 0 (.inl rfl),
        List.filter_cons_of_neg (by simpa using hseen), List.range'_zero, List.nil_append]

theorem count_wantedRanges (hlimit : 1 ≤ limit) (slot : Partial) (is : List ℕ) (first run : ℕ) :
    ∀ r ∈ wantedRanges slot limit is first run, 1 ≤ r.count ∧ r.count ≤ limit := by
  induction is generalizing first run with
  | nil => exact count_splitRun hlimit
  | cons i is ih =>
    rw [wantedRanges]
    split_ifs
    · exact ih _ _
    · exact ih _ _
    · intro r hr
      exact (List.mem_append.1 hr).elim (count_splitRun hlimit r) (ih _ _ r)

/-- A run that has not begun begins nowhere. -/
theorem wantedRanges_start (slot : Partial) (is : List ℕ) (first first' : ℕ) :
    wantedRanges slot limit is first 0 = wantedRanges slot limit is first' 0 := by
  induction is generalizing first first' with
  | nil => rfl
  | cons i is ih =>
    rw [wantedRanges, wantedRanges, if_pos rfl, if_pos rfl]
    split_ifs
    · rfl
    · exact congrArg _ (ih _ _)

/-- Ranges that are not empty are one behind the other when their pieces are. -/
theorem pairwise_of_indices {ranges : List ReasmRange}
    (h : (ranges.flatMap ReasmRange.indices).Pairwise (· < ·)) (hpos : ∀ r ∈ ranges, 1 ≤ r.count) :
    ranges.Pairwise fun r r' => r.first + r.count ≤ r'.first := by
  induction ranges with
  | nil => exact .nil
  | cons r ranges ih =>
    rw [List.flatMap_cons, List.pairwise_append] at h
    refine List.pairwise_cons.2 ⟨fun r' hr' => ?_,
      ih h.2.1 fun r' hr' => hpos r' (List.mem_cons_of_mem r hr')⟩
    have hcount := hpos r (List.mem_cons_self ..)
    have hcount' := hpos r' (List.mem_cons_of_mem r hr')
    have hlast : r.first + (r.count - 1) ∈ r.indices := by
      rw [ReasmRange.indices, List.mem_range'_1]
      omega
    have hfirst : r'.first ∈ ranges.flatMap ReasmRange.indices := by
      rw [List.mem_flatMap]
      exact ⟨r', hr', by rw [ReasmRange.indices, List.mem_range'_1]; omega⟩
    have hlt := h.2.2 _ hlast _ hfirst
    omega

/-! ## An array that ends -/

/-- **A run written into what room there is**: the first ranges of it, and all of them when
it is written whole. -/
theorem emitRun_spec (hlimit : 1 ≤ limit) {fuel : ℕ} {w : WantWalk} (hfuel : w.run ≤ fuel)
    (hroom : w.out.length ≤ cap) :
    (emitRun limit cap fuel w).2.out =
        (w.out ++ splitRun limit fuel w.first w.run).take cap ∧
      ((emitRun limit cap fuel w).1 = true →
        (emitRun limit cap fuel w).2.run = 0 ∧
        (emitRun limit cap fuel w).2.out = w.out ++ splitRun limit fuel w.first w.run) ∧
      ((emitRun limit cap fuel w).1 = false →
        (emitRun limit cap fuel w).2.run ≠ 0 ∧ (emitRun limit cap fuel w).2.out.length = cap) := by
  induction fuel generalizing w with
  | zero =>
    refine ⟨?_, fun _ => ⟨Nat.le_zero.1 hfuel, ?_⟩, fun h => absurd h (by simp [emitRun])⟩
    · rw [splitRun, List.append_nil, List.take_of_length_le hroom]
      rfl
    · rw [splitRun, List.append_nil]
      rfl
  | succ fuel ih =>
    rw [emitRun, splitRun]
    by_cases hrun : w.run = 0
    · rw [if_pos hrun, if_pos hrun, List.append_nil]
      exact ⟨(List.take_of_length_le hroom).symm, fun _ => ⟨hrun, rfl⟩, fun h => by cases h⟩
    rw [if_neg hrun, if_neg hrun]
    by_cases hfull : cap ≤ w.out.length
    · rw [if_pos hfull]
      refine ⟨?_, fun h => (by cases h), fun _ => ⟨hrun, Nat.le_antisymm hroom hfull⟩⟩
      rw [List.take_append_of_le_length hfull, List.take_of_length_le hroom]
    · rw [if_neg hfull]
      have htake : (if w.run < limit then w.run else limit) = min w.run limit := by
        split_ifs <;> omega
      have hnext := ih (w := ⟨w.out ++ [⟨w.first, min w.run limit⟩], w.first + min w.run limit,
        w.run - min w.run limit⟩) (by show w.run - min w.run limit ≤ fuel; omega)
        (by rw [List.length_append, List.length_singleton]; omega)
      rw [List.append_assoc, List.singleton_append] at hnext
      simp only [htake]
      exact hnext

/-- The walk's answer: the loop, and the run it ends in. -/
def answered (limit cap : ℕ) (w : WantWalk) : List ReasmRange := (emitRun limit cap w.run w).2.out

/-- **With room for `cap` ranges, the first `cap` of them.** -/
theorem scanWant_out (hlimit : 1 ≤ limit) (slot : Partial) (is : List ℕ) (w : WantWalk)
    (hroom : w.out.length ≤ cap) :
    answered limit cap (scanWant slot limit cap is w) =
      (w.out ++ wantedRanges slot limit is w.first w.run).take cap := by
  induction is generalizing w with
  | nil => exact (emitRun_spec hlimit (Nat.le_refl w.run) hroom).1
  | cons i is ih =>
    rw [scanWant, wantedRanges]
    by_cases hseen : seenGet slot i = false
    · rw [if_pos hseen, if_pos hseen]
      exact ih _ hroom
    rw [if_neg hseen, if_neg hseen]
    obtain ⟨hout, hwhole, hstopped⟩ := emitRun_spec hlimit (Nat.le_refl w.run) hroom
    split
    next w' heq =>
      -- the array is full: what is left of the run is not written either
      rw [heq] at hout hstopped
      obtain ⟨hrun, hfull⟩ := hstopped rfl
      have hlong : cap ≤ (w.out ++ splitRun limit w.run w.first w.run).length := by
        have hle := List.length_take_le' cap (w.out ++ splitRun limit w.run w.first w.run)
        rw [← hout, hfull] at hle
        exact hle
      rw [← List.append_assoc, List.take_append_of_le_length hlong, ← hout, answered]
      obtain ⟨n, hn⟩ := Nat.exists_eq_succ_of_ne_zero hrun
      rw [hn, emitRun, if_neg hrun, if_pos (Nat.le_of_eq hfull.symm)]
    next w' heq =>
      rw [heq] at hwhole hout
      obtain ⟨hrun, hout'⟩ := hwhole rfl
      have hroom' : w'.out.length ≤ cap := by
        rw [hout]
        exact List.length_take_le _ _
      rw [ih w' hroom', hrun, hout', List.append_assoc,
        wantedRanges_start slot is w'.first (w.first + w.run)]

/-- The answers for a slot, for all the room there may be, are the beginnings of one list of
ranges. -/
theorem planWant_ranges {table : Reasm} {sender : Bytes32} {msg : UInt32} {slot : Partial}
    {place maxPerRange : ℕ} (hfind : find table sender msg = some (slot, place))
    (hmax : 1 ≤ maxPerRange) :
    ∃ full : List ReasmRange,
      (∀ cap, planWant table sender msg maxPerRange cap = .ok (full.take cap)) ∧
      full.Pairwise (fun r r' => r.first + r.count ≤ r'.first) ∧
      (∀ r ∈ full, 1 ≤ r.count ∧ r.count ≤ maxPerRange) ∧
      ∀ i, (∃ r ∈ full, r.first ≤ i ∧ i < r.first + r.count) ↔
        i < slot.chunks ∧ seenGet slot i = false := by
  have hindices := indices_wantedRanges hmax slot slot.chunks 0 0 0 (.inl rfl)
  have hcount := count_wantedRanges hmax slot (List.range' 0 slot.chunks) 0 0
  rw [List.range'_zero, List.nil_append, ← List.range_eq_range'] at hindices
  rw [← List.range_eq_range'] at hcount
  refine ⟨wantedRanges slot maxPerRange (List.range slot.chunks) 0 0, fun cap => ?_, ?_, hcount,
    fun i => ?_⟩
  · rw [planWant, if_neg (by omega), hfind]
    exact congrArg Except.ok (scanWant_out hmax slot (List.range slot.chunks) ⟨[], 0, 0⟩
      (Nat.zero_le cap))
  · exact pairwise_of_indices (hindices ▸ List.pairwise_lt_range.filter _) fun r hr =>
      (hcount r hr).1
  · have hmem : i ∈ (wantedRanges slot maxPerRange (List.range slot.chunks) 0 0).flatMap
        ReasmRange.indices ↔ i < slot.chunks ∧ seenGet slot i = false := by
      rw [hindices, List.mem_filter, List.mem_range, Bool.not_eq_true']
    rw [← hmem, List.mem_flatMap]
    simp only [ReasmRange.indices, List.mem_range'_1]

/-- **What is still wanted** of a message that is half-finished behind a run: ascending,
disjoint ranges of 1 to `maxPerRange` pieces, which hold exactly the pieces that have not come;
with room for `cap`, the first `cap` of them. -/
theorem still_wanted {slots : List Partial} {perSenderMax : ℕ} {maxHold : UInt64} {table : Reasm}
    (hslots : ∀ slot ∈ slots, ∃ buf, slotInit buf = .ok slot)
    (hinit : reasmInit slots perSenderMax maxHold = .ok table) (calls : List ReasmCall)
    {place : ℕ} {slot : Partial} (hslot : (reasmRun table calls).partials[place]? = some slot)
    (hlive : slot.live = true) {maxPerRange : ℕ} (hmax : 1 ≤ maxPerRange) :
    ∃ full : List ReasmRange,
      (∀ cap, planWant (reasmRun table calls) slot.sender slot.msg maxPerRange cap =
        .ok (full.take cap)) ∧
      full.Pairwise (fun r r' => r.first + r.count ≤ r'.first) ∧
      (∀ r ∈ full, 1 ≤ r.count ∧ r.count ≤ maxPerRange) ∧
      ∀ i, (∃ r ∈ full, r.first ≤ i ∧ i < r.first + r.count) ↔
        i < slot.chunks ∧ i ∉ ((watchRun table calls).2 place).held.map Prod.fst := by
  have hok := watchRun_ok hslots hinit calls
  rw [watchRun_fst] at hok
  obtain ⟨full, hanswers, hordered, hcounts, hunion⟩ :=
    planWant_ranges (find_eq_some hok hslot hlive) hmax
  refine ⟨full, hanswers, hordered, hcounts, fun i => ?_⟩
  rw [hunion, ← ((hok.slots place slot hslot).rests hlive).holds.seen_iff, Bool.not_eq_true]

/-- The first of two pieces, where the last has come. -/
theorem still_wanted_lastFirst :
    ∃ full : List ReasmRange,
      (∀ cap, planWant (reasmRun ⟨[emptySlot [0, 0, 0, 0]], 1, 9⟩ (lastFirst.take 1)) 7 1 5 cap =
        .ok (full.take cap)) ∧
      full.Pairwise (fun r r' => r.first + r.count ≤ r'.first) ∧
      (∀ r ∈ full, 1 ≤ r.count ∧ r.count ≤ 5) ∧
      ∀ i, (∃ r ∈ full, r.first ≤ i ∧ i < r.first + r.count) ↔
        i < 2 ∧ i ∉ ((watchRun ⟨[emptySlot [0, 0, 0, 0]], 1, 9⟩ (lastFirst.take 1)).2 0).held.map
          Prod.fst := by
  have hinit : reasmInit [emptySlot [0, 0, 0, 0]] 1 9 = .ok ⟨[emptySlot [0, 0, 0, 0]], 1, 9⟩ := rfl
  have hat : (reasmRun ⟨[emptySlot [0, 0, 0, 0]], 1, 9⟩ (lastFirst.take 1)).partials[0]? =
      some ⟨7, 1, 2, 1, 14, [0, 0, 0, 30], 0, 1, 1, 2, true, false⟩ := by decide
  refine still_wanted (fun slot hslot => ?_) hinit (lastFirst.take 1) hat rfl (by decide)
  obtain rfl := List.mem_singleton.1 hslot
  exact ⟨⟨[0, 0, 0, 0], by decide⟩, rfl⟩

end Chunk
end Fuzznet
