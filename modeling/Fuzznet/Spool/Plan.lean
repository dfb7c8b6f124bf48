/-
# What a spool plans to ask for, and to offer

`fzn_blob_span_largest_at` of `blob/blob.c`, and `fzn_spool_plan_want` and
`fzn_spool_plan_offer` of `spool/plan.c`: the runs of missing leaves from a leaf on, round the
end of the blob, and the runs of held leaves in the ranges a peer wants, each cut into canonical
spans, the largest first.

Both plans are the beginning of one that has all the room (`planWant_ranges`,
`planOffer_ranges`), whose spans laid end to end are the leaves walked past: the missing ones in
circular order, or as many of the held ones as the budget has.
-/

import Mathlib.Data.List.Nodup
import Mathlib.Order.Bounds.Defs
import Fuzznet.Spool.Store

namespace Fuzznet
namespace Spool

open Wire Lib Blob

/-- The descent of `fzn_blob_span_largest_at`, with `room` levels left. -/
def largestFrom (first maxCount : ℕ) : ℕ → ℕ → ℕ → ℕ
  | 0, lo, n => if lo = first ∧ n ≤ maxCount then n else 0
  | room + 1, lo, n =>
    if lo = first ∧ n ≤ maxCount then n
    else if n ≤ 1 then 0
    else
      let k := splitAt n
      if first < lo + k then largestFrom first maxCount room lo k
      else largestFrom first maxCount room (lo + k) (n - k)

/-- `fzn_blob_span_largest_at`. -/
def spanLargestAt (leafCount first maxCount : ℕ) : ℕ :=
  if leafCount = 0 ∨ maxLeaves < leafCount ∨ leafCount ≤ first then 0
  else if maxCount = 0 then 0
  else largestFrom first maxCount maxDepth 0 leafCount

/-- `fzn_spool_range_t`. -/
structure Range where
  first : ℕ
  count : ℕ
  deriving DecidableEq, Repr

/-- A leaf of a range. -/
def Range.Has (r : Range) (i : ℕ) : Prop := r.first ≤ i ∧ i < r.first + r.count

/-- The loop of `emit`, with fuel for the leaves of the run: what is planned, and whether it had
the room. -/
def emitFrom (leaves limit cap : ℕ) : ℕ → List Range → ℕ → ℕ → List Range × Bool
  | 0, out, _, _ => (out, true)
  | fuel + 1, out, first, run =>
    if run = 0 then (out, true)
    else
      let take := spanLargestAt leaves first (min run limit)
      if take = 0 then (out, false)
      else if cap ≤ out.length then (out, false)
      else emitFrom leaves limit cap fuel (out ++ [⟨first, take⟩]) (first + take) (run - take)

/-- `emit`. -/
def emit (leaves limit cap : ℕ) (out : List Range) (first run : ℕ) : List Range × Bool :=
  emitFrom leaves limit cap run out first run

/-- The leaf that a plan from `start` on is at, after `step` leaves. -/
def planAt (leaves start step : ℕ) : ℕ :=
  if leaves ≤ start + step then start + step - leaves else start + step

/-- The loop of `fzn_spool_plan_want`, with `todo` leaves left and the run it is in. -/
def planFrom (present : Bytes) (leaves start limit cap : ℕ) :
    ℕ → ℕ → List Range → ℕ → ℕ → List Range
  | 0, _, out, runFirst, run =>
    if 0 < run then (emit leaves limit cap out runFirst run).1 else out
  | todo + 1, step, out, runFirst, run =>
    let i := planAt leaves start step
    if bitGet present i = false then
      if 0 < run ∧ i = 0 then
        let closed := emit leaves limit cap out runFirst run
        if closed.2 = false then closed.1
        else planFrom present leaves start limit cap todo (step + 1) closed.1 i 1
      else
        planFrom present leaves start limit cap todo (step + 1) out
          (if run = 0 then i else runFirst) (run + 1)
    else if 0 < run then
      let closed := emit leaves limit cap out runFirst run
      if closed.2 = false then closed.1
      else planFrom present leaves start limit cap todo (step + 1) closed.1 runFirst 0
    else planFrom present leaves start limit cap todo (step + 1) out runFirst 0

/-- `fzn_spool_plan_want`. -/
def planWant (s : SpoolState) (start maxPerRange cap : ℕ) : Except SpoolErr (List Range) :=
  if maxPerRange = 0 then .error .malformed
  else if s.leaves = 0 ∨ s.leaves ≤ start then .error .malformed
  else .ok (planFrom s.present s.leaves start maxPerRange cap s.leaves 0 [] 0 0)

/-- `FZN_SPOOL_MAX_WANT`. -/
def spoolMaxWant : ℕ := 256

/-- A run closed at the end of a wanted range: what is planned, and whether it had the room. -/
def emitLast (leaves limit cap : ℕ) (out : List Range) (runFirst run : ℕ) : List Range × Bool :=
  if 0 < run then emit leaves limit cap out runFirst run else (out, true)

/-- The inner loop of `fzn_spool_plan_offer`, over the leaves of a wanted range: what is planned,
the budget that is left, and whether there was room. -/
def offerRange (present : Bytes) (leaves limit cap : ℕ) :
    List ℕ → List Range → ℕ → ℕ → ℕ → List Range × ℕ × Bool
  | [], out, runFirst, run, budget =>
    let closed := emitLast leaves limit cap out runFirst run
    (closed.1, budget, closed.2)
  | i :: is, out, runFirst, run, budget =>
    if budget = 0 then
      let closed := emitLast leaves limit cap out runFirst run
      (closed.1, budget, closed.2)
    else if bitGet present i = true then
      offerRange present leaves limit cap is out (if run = 0 then i else runFirst) (run + 1)
        (budget - 1)
    else
      let closed := emitLast leaves limit cap out runFirst run
      if closed.2 = false then (closed.1, budget, false)
      else offerRange present leaves limit cap is closed.1 runFirst 0 budget

/-- The leaves of a wanted range that the blob has. -/
def clipped (leaves : ℕ) (w : Range) : List ℕ :=
  List.range' w.first (if w.count < leaves - w.first then w.count else leaves - w.first)

/-- The outer loop of `fzn_spool_plan_offer`. -/
def offerFrom (present : Bytes) (leaves limit cap : ℕ) :
    List Range → List Range → ℕ → List Range
  | [], out, _ => out
  | w :: want, out, budget =>
    if budget = 0 then out
    else if leaves ≤ w.first then offerFrom present leaves limit cap want out budget
    else
      match offerRange present leaves limit cap (clipped leaves w) out 0 0 budget with
      | (out, _, false) => out
      | (out, budget, true) => offerFrom present leaves limit cap want out budget

/-- `fzn_spool_plan_offer`. -/
def planOffer (s : SpoolState) (want : List Range) (maxLeaves cap : ℕ) :
    Except SpoolErr (List Range) :=
  if maxLeaves = 0 then .error .malformed
  else .ok (offerFrom s.present s.leaves maxLeaves cap (want.take spoolMaxWant) [] maxLeaves)

/-! ## The largest span -/

theorem largestFrom_spec {first maxCount room lo n : ℕ} (hlo : lo ≤ first) (hin : first < lo + n)
    (hroom : n ≤ 2 ^ room) (hle : room ≤ maxDepth) (hmax : 0 < maxCount) :
    0 < largestFrom first maxCount room lo n ∧ largestFrom first maxCount room lo n ≤ maxCount ∧
      Part lo n first (largestFrom first maxCount room lo n) := by
  induction room generalizing lo n with
  | zero =>
    rw [Nat.pow_zero] at hroom
    obtain rfl : n = 1 := by omega
    obtain rfl : lo = first := by omega
    rw [largestFrom, if_pos ⟨rfl, hmax⟩]
    exact ⟨Nat.one_pos, hmax, .whole⟩
  | succ room ih =>
    rw [largestFrom]
    split
    next hfits =>
      obtain ⟨rfl, hfits⟩ := hfits
      exact ⟨by omega, hfits, .whole⟩
    next hfits =>
      have hmany : 1 < n := by omega
      obtain ⟨hpos, hlt, hhalf, htwice⟩ := splitSize_bounds hmany hroom
      rw [if_neg (not_le.2 hmany),
        splitAt_eq hmany (hroom.trans (Nat.pow_le_pow_right Nat.two_pos hle))]
      dsimp only
      split
      next hleft =>
        obtain ⟨hres, hcount, hpart⟩ := ih hlo hleft hhalf (by omega)
        exact ⟨hres, hcount, (Part.whole.left hmany).trans hpart⟩
      next hright =>
        obtain ⟨hres, hcount, hpart⟩ :=
          @ih (lo + splitSize n) (n - splitSize n) (not_lt.1 hright) (by omega) (by omega) (by omega)
        exact ⟨hres, hcount, (Part.whole.right hmany).trans hpart⟩

/-- **No subtree from a leaf on that is few enough has more leaves.** -/
theorem le_largestFrom {first maxCount room lo n m : ℕ} (h : Part lo n first m) (hm : m ≤ maxCount)
    (hn : 0 < n) (hroom : n ≤ 2 ^ room) (hle : room ≤ maxDepth) :
    m ≤ largestFrom first maxCount room lo n := by
  induction room generalizing lo n with
  | zero =>
    rw [Nat.pow_zero] at hroom
    rcases h.of_halves with ⟨rfl, rfl⟩ | ⟨hmany, -⟩
    · rw [largestFrom, if_pos ⟨rfl, hm⟩]
    · omega
  | succ room ih =>
    rw [largestFrom]
    split
    next => have := h.bounds; omega
    next hfits =>
      rcases h.of_halves with ⟨rfl, rfl⟩ | ⟨hmany, h⟩
      · exact absurd ⟨rfl, hm⟩ hfits
      · obtain ⟨hpos, hlt, hhalf, htwice⟩ := splitSize_bounds hmany hroom
        rw [if_neg (not_le.2 hmany),
          splitAt_eq hmany (hroom.trans (Nat.pow_le_pow_right Nat.two_pos hle))]
        dsimp only
        rcases h with h | h
        · have hin := h.pos hpos
          have hbounds := h.bounds
          rw [if_pos (by omega)]
          exact ih h hpos hhalf (by omega)
        · rw [if_neg (not_lt.2 h.bounds.1)]
          exact ih h (by omega) (by omega) (by omega)

theorem le_spanLargestAt {leafCount first maxCount m : ℕ} (h : Part 0 leafCount first m)
    (hm : m ≤ maxCount) (hsome : 0 < leafCount) (hmax : leafCount ≤ maxLeaves) :
    m ≤ spanLargestAt leafCount first maxCount := by
  have hpos := h.pos hsome
  have hbounds := h.bounds
  rw [spanLargestAt, if_neg (by omega), if_neg (by omega)]
  exact le_largestFrom h hm hsome hmax (Nat.le_refl _)

/-- **The largest span at a leaf** is a subtree that begins there. -/
theorem spanLargestAt_spec {leafCount first maxCount : ℕ} (hfirst : first < leafCount)
    (hmax : leafCount ≤ maxLeaves) (hcount : 0 < maxCount) :
    0 < spanLargestAt leafCount first maxCount ∧ spanLargestAt leafCount first maxCount ≤ maxCount ∧
      Part 0 leafCount first (spanLargestAt leafCount first maxCount) := by
  rw [spanLargestAt, if_neg (by omega), if_neg (by omega)]
  exact largestFrom_spec (Nat.zero_le _) (by omega) hmax (Nat.le_refl _) hcount

/-! ## A run in spans -/

variable {present : Bytes} {leaves start limit cap fuel first run : ℕ} {out : List Range}

/-- The leaves of a range. -/
def Range.indices (r : Range) : List ℕ := List.range' r.first r.count

theorem Range.mem_indices {r : Range} {i : ℕ} : i ∈ r.indices ↔ r.Has i := List.mem_range'_1

/-- A run in spans of at most `limit` leaves, for all the room there may be. -/
def cutRun (leaves limit : ℕ) : ℕ → ℕ → ℕ → List Range
  | 0, _, _ => []
  | fuel + 1, first, run =>
    if run = 0 then []
    else
      let take := spanLargestAt leaves first (min run limit)
      ⟨first, take⟩ :: cutRun leaves limit fuel (first + take) (run - take)

theorem cutRun_zero : cutRun leaves limit fuel first 0 = [] := by
  cases fuel with
  | zero => rfl
  | succ fuel => exact if_pos rfl

/-- A run is inside the blob. -/
def Inside (leaves first run : ℕ) : Prop := run = 0 ∨ first + run ≤ leaves

/-- What is taken of a run that is inside. -/
theorem take_spec (hrun : run ≠ 0) (hin : Inside leaves first run) (hmax : leaves ≤ maxLeaves)
    (hlimit : 0 < limit) :
    0 < spanLargestAt leaves first (min run limit) ∧
      spanLargestAt leaves first (min run limit) ≤ min run limit ∧
      Part 0 leaves first (spanLargestAt leaves first (min run limit)) := by
  have hin := hin.resolve_left hrun
  exact spanLargestAt_spec (by omega) hmax (by omega)

/-- **The spans of a run, end to end,** are the run. -/
theorem indices_cutRun (hfuel : run ≤ fuel) (hin : Inside leaves first run)
    (hmax : leaves ≤ maxLeaves) (hlimit : 0 < limit) :
    (cutRun leaves limit fuel first run).flatMap Range.indices = List.range' first run := by
  induction fuel generalizing first run with
  | zero =>
    obtain rfl := Nat.le_zero.1 hfuel
    rfl
  | succ fuel ih =>
    rw [cutRun]
    split
    next hrun => rw [hrun, List.flatMap_nil, List.range'_zero]
    next hrun =>
      obtain ⟨hpos, hle, -⟩ := take_spec hrun hin hmax hlimit
      have hin := hin.resolve_left hrun
      have hsum : spanLargestAt leaves first (min run limit) +
          (run - spanLargestAt leaves first (min run limit)) = run := by omega
      dsimp only
      rw [List.flatMap_cons, ih (by omega) (.inr (by omega)), Range.indices,
        List.range'_append_1, hsum]

/-- What a plan may name: subtrees of at most so many leaves. -/
def Cut (leaves limit : ℕ) (r : Range) : Prop := Part 0 leaves r.first r.count ∧ r.count ≤ limit

theorem cut_cutRun (hin : Inside leaves first run) (hmax : leaves ≤ maxLeaves)
    (hlimit : 0 < limit) : ∀ r ∈ cutRun leaves limit fuel first run, Cut leaves limit r := by
  induction fuel generalizing first run with
  | zero => exact fun r hr => absurd hr List.not_mem_nil
  | succ fuel ih =>
    intro r hr
    rw [cutRun] at hr
    split at hr
    next => cases hr
    next hrun =>
      obtain ⟨hpos, hle, hpart⟩ := take_spec hrun hin hmax hlimit
      have hin := hin.resolve_left hrun
      rcases List.mem_cons.1 hr with rfl | hr
      · exact ⟨hpart, hle.trans (Nat.min_le_right _ _)⟩
      · exact ih (.inr (by omega)) r hr

/-- **A run closed**: all its spans, or as many as there is room for. -/
theorem emitFrom_cases (hin : Inside leaves first run) (hmax : leaves ≤ maxLeaves)
    (hlimit : 0 < limit) (hroom : out.length ≤ cap) :
    let spans := out ++ cutRun leaves limit fuel first run
    emitFrom leaves limit cap fuel out first run = (spans, true) ∧ spans.length ≤ cap ∨
      emitFrom leaves limit cap fuel out first run = (spans.take cap, false) ∧
        cap < spans.length := by
  induction fuel generalizing out first run with
  | zero => exact .inl ⟨by rw [emitFrom, cutRun, List.append_nil], by simpa [cutRun] using hroom⟩
  | succ fuel ih =>
    rw [emitFrom, cutRun]
    split
    next => exact .inl ⟨by rw [List.append_nil], by simpa using hroom⟩
    next hrun =>
      obtain ⟨hpos, hle, -⟩ := take_spec hrun hin hmax hlimit
      have hin := hin.resolve_left hrun
      dsimp only
      rw [if_neg (by omega)]
      split
      next hfull =>
        obtain rfl : out.length = cap := le_antisymm hroom hfull
        refine .inr ⟨by rw [List.take_left], ?_⟩
        rw [List.length_append, List.length_cons]
        omega
      next hfull =>
        have := @ih (first + spanLargestAt leaves first (min run limit))
          (run - spanLargestAt leaves first (min run limit))
          (out ++ [⟨first, spanLargestAt leaves first (min run limit)⟩]) (.inr (by omega))
          (by rw [List.length_append, List.length_singleton]; omega)
        rwa [List.append_assoc, List.singleton_append] at this

/-- The spans of a run. -/
abbrev spansOf (leaves limit first run : ℕ) : List Range := cutRun leaves limit run first run

theorem emit_cases (hin : Inside leaves first run) (hmax : leaves ≤ maxLeaves)
    (hlimit : 0 < limit) (hroom : out.length ≤ cap) :
    let spans := out ++ spansOf leaves limit first run
    emit leaves limit cap out first run = (spans, true) ∧ spans.length ≤ cap ∨
      emit leaves limit cap out first run = (spans.take cap, false) ∧ cap < spans.length :=
  emitFrom_cases hin hmax hlimit hroom

/-- What is planned before there is no more room does not depend on what is behind. -/
theorem take_spans {spans : List Range} (h : cap < spans.length) (rest : List Range) :
    (spans ++ rest).take cap = spans.take cap := List.take_append_of_le_length h.le

/-! ## A plan for all the room -/

theorem planAt_succ {step : ℕ} :
    planAt leaves start (step + 1) = planAt leaves start step + 1 ∨
      planAt leaves start (step + 1) = 0 ∧ planAt leaves start step + 1 = leaves := by
  unfold planAt
  split <;> split <;> omega

/-- The walk is round the blob. -/
theorem planAt_eq_mod {step : ℕ} (hstart : start < leaves) (hstep : step < leaves) :
    planAt leaves start step = (start + step) % leaves := by
  unfold planAt
  split
  next hle => rw [Nat.mod_eq_sub_mod hle, Nat.mod_eq_of_lt (by omega)]
  next hlt => rw [Nat.mod_eq_of_lt (not_le.1 hlt)]

/-- The spans that a walk plans, in a run of `run` leaves from `runFirst`. -/
def missingSpans (present : Bytes) (leaves start limit : ℕ) : ℕ → ℕ → ℕ → ℕ → List Range
  | 0, _, runFirst, run => spansOf leaves limit runFirst run
  | todo + 1, step, runFirst, run =>
    let i := planAt leaves start step
    if bitGet present i = false then
      if 0 < run ∧ i = 0 then
        spansOf leaves limit runFirst run ++
          missingSpans present leaves start limit todo (step + 1) i 1
      else
        missingSpans present leaves start limit todo (step + 1) (if run = 0 then i else runFirst)
          (run + 1)
    else
      spansOf leaves limit runFirst run ++
        missingSpans present leaves start limit todo (step + 1) runFirst 0

/-- A run that ends where the walk is, or at the end of the blob with the walk at its
beginning. -/
def RunTo (leaves start step runFirst run : ℕ) : Prop :=
  run = 0 ∨ runFirst + run = planAt leaves start step ∨
    planAt leaves start step = 0 ∧ runFirst + run = leaves

variable {step runFirst todo : ℕ}

theorem RunTo.none : RunTo leaves start step runFirst 0 := .inl rfl

theorem RunTo.inside (h : RunTo leaves start step runFirst run) (hstart : start < leaves)
    (hstep : step ≤ leaves) : Inside leaves runFirst run := by
  rcases h with hrun | h
  · exact .inl hrun
  · refine .inr ?_
    unfold planAt at h
    split at h <;> omega

/-- A leaf taken into the run. -/
theorem RunTo.grown (h : RunTo leaves start step runFirst run)
    (hopen : ¬(0 < run ∧ planAt leaves start step = 0)) :
    RunTo leaves start (step + 1) (if run = 0 then planAt leaves start step else runFirst)
      (run + 1) := by
  have hnext := @planAt_succ leaves start step
  rcases Nat.eq_zero_or_pos run with rfl | hrun
  · rw [if_pos rfl]
    exact .inr (hnext.imp (fun h => h.symm) fun h => ⟨h.1, h.2⟩)
  · have hat := (h.resolve_left hrun.ne').resolve_right fun hend => hopen ⟨hrun, hend.1⟩
    rw [if_neg hrun.ne']
    rcases hnext with hnext | ⟨hfirst, hend⟩
    · exact .inr (.inl (by omega))
    · exact .inr (.inr ⟨hfirst, by omega⟩)

/-- A run begun where the walk is. -/
theorem RunTo.begun : RunTo leaves start (step + 1) (planAt leaves start step) 1 := by
  have := RunTo.grown (@RunTo.none leaves start step 0) (by omega)
  rwa [if_pos rfl] at this

section

variable (h : RunTo leaves start step runFirst run) (hstart : start < leaves)
  (htodo : step + todo = leaves) (hmax : leaves ≤ maxLeaves) (hlimit : 0 < limit)
include h hstart htodo hmax hlimit

theorem cut_missingSpans :
    ∀ r ∈ missingSpans present leaves start limit todo step runFirst run,
      Cut leaves limit r := by
  induction todo generalizing step runFirst run with
  | zero => exact cut_cutRun (h.inside hstart (by omega)) hmax hlimit
  | succ todo ih =>
    have hin := h.inside hstart (by omega)
    intro r hr
    rw [missingSpans] at hr
    split at hr
    next =>
      split at hr
      next hwrap =>
        rcases List.mem_append.1 hr with hr | hr
        · exact cut_cutRun hin hmax hlimit r hr
        · exact ih .begun (by omega) r hr
      next hopen => exact ih (h.grown hopen) (by omega) r hr
    next =>
      rcases List.mem_append.1 hr with hr | hr
      · exact cut_cutRun hin hmax hlimit r hr
      · exact ih .none (by omega) r hr

/-- **The spans of a walk, end to end,** are the run it is in and the missing leaves it comes
past. -/
theorem indices_missingSpans :
    (missingSpans present leaves start limit todo step runFirst run).flatMap Range.indices =
      List.range' runFirst run ++ ((List.range' step todo).map (planAt leaves start)).filter
        fun i => !bitGet present i := by
  induction todo generalizing step runFirst run with
  | zero =>
    rw [missingSpans, indices_cutRun (Nat.le_refl run) (h.inside hstart (by omega)) hmax hlimit,
      List.range'_zero, List.map_nil, List.filter_nil, List.append_nil]
  | succ todo ih =>
    have hruns := indices_cutRun (Nat.le_refl run) (h.inside hstart (by omega)) hmax hlimit
    rw [missingSpans, List.range'_succ, List.map_cons, List.filter_cons]
    split
    next hmissing =>
      rw [if_pos (show (!bitGet present (planAt leaves start step)) = true by rw [hmissing]; rfl)]
      split
      next hwrap =>
        rw [List.flatMap_append, hruns, ih .begun (by omega), List.range'_one]
        rfl
      next hopen =>
        rw [ih (h.grown hopen) (by omega)]
        rcases Nat.eq_zero_or_pos run with rfl | hrun
        · rw [if_pos rfl, Nat.zero_add, List.range'_one]
          rfl
        · have hat := (h.resolve_left hrun.ne').resolve_right fun hzero => hopen ⟨hrun, hzero.1⟩
          rw [if_neg hrun.ne', List.range'_1_concat, hat, List.append_assoc]
          rfl
    next hheld =>
      rw [Bool.not_eq_false] at hheld
      rw [if_neg (by rw [hheld]; exact Bool.false_ne_true), List.flatMap_append, hruns,
        ih .none (by omega), List.range'_zero, List.nil_append]

/-- **A walk with so much room** plans as many of the spans. -/
theorem planFrom_eq_take (hroom : out.length ≤ cap) :
    planFrom present leaves start limit cap todo step out runFirst run =
      (out ++ missingSpans present leaves start limit todo step runFirst run).take cap := by
  induction todo generalizing step runFirst run out with
  | zero =>
    rw [planFrom, missingSpans]
    split
    next =>
      rcases emit_cases (h.inside hstart (by omega)) hmax hlimit hroom with
        ⟨heq, hle⟩ | ⟨heq, -⟩
      · rw [heq, List.take_of_length_le hle]
      · rw [heq]
    next hrun =>
      obtain rfl : run = 0 := by omega
      rw [spansOf, cutRun_zero, List.append_nil, List.take_of_length_le hroom]
  | succ todo ih =>
    have hcases := emit_cases (h.inside hstart (by omega)) hmax hlimit hroom
    rw [planFrom, missingSpans]
    dsimp only
    split
    next =>
      split
      next hwrap =>
        rcases hcases with ⟨heq, hle⟩ | ⟨heq, hlt⟩
        · rw [heq, if_neg Bool.true_eq_false_eq_False, ih .begun (by omega) hle,
            List.append_assoc]
        · rw [heq, if_pos rfl, ← List.append_assoc, take_spans hlt]
      next hopen => exact ih (h.grown hopen) (by omega) hroom
    next =>
      split
      next hrun =>
        rcases hcases with ⟨heq, hle⟩ | ⟨heq, hlt⟩
        · rw [heq, if_neg Bool.true_eq_false_eq_False, ih .none (by omega) hle,
            List.append_assoc]
        · rw [heq, if_pos rfl, ← List.append_assoc, take_spans hlt]
      next hrun =>
        obtain rfl : run = 0 := by omega
        rw [ih .none (by omega) hroom, spansOf, cutRun_zero, List.nil_append]

end

/-- The missing leaves, in circular order from a leaf on. -/
def lackedFrom (s : SpoolState) (start : ℕ) : List ℕ :=
  ((List.range s.leaves).map fun step => (start + step) % s.leaves).filter
    fun i => !bitGet s.present i

variable {s : SpoolState}

/-- **A plan with so much room** is the beginning of one that has all the room. -/
theorem planWant_ranges {maxPerRange : ℕ} (hstart : start < s.leaves) (hmax : s.leaves ≤ maxLeaves)
    (hper : 1 ≤ maxPerRange) :
    ∃ full : List Range, (∀ cap, planWant s start maxPerRange cap = .ok (full.take cap)) ∧
      (∀ r ∈ full, Cut s.leaves maxPerRange r) ∧
      full.flatMap Range.indices = lackedFrom s start := by
  refine ⟨missingSpans s.present s.leaves start maxPerRange s.leaves 0 0 0, fun cap => ?_,
    cut_missingSpans .none hstart (Nat.zero_add _) hmax hper, ?_⟩
  · rw [planWant, if_neg (by omega), if_neg (by omega), planFrom_eq_take .none hstart
      (Nat.zero_add _) hmax hper (Nat.zero_le cap), List.nil_append]
  · rw [indices_missingSpans .none hstart (Nat.zero_add _) hmax hper, List.range'_zero,
      List.nil_append, lackedFrom, ← List.range_eq_range']
    exact congrArg _ (List.map_congr_left fun step hstep =>
      planAt_eq_mod hstart (List.mem_range.1 hstep))

/-! ## An offer for all the room -/

/-- The spans of the held leaves among some leaves, in a run of `run` leaves from `runFirst`, as
far as a budget goes. -/
def heldSpans (present : Bytes) (leaves limit : ℕ) : List ℕ → ℕ → ℕ → ℕ → List Range
  | [], runFirst, run, _ => spansOf leaves limit runFirst run
  | i :: is, runFirst, run, budget =>
    if budget = 0 then spansOf leaves limit runFirst run
    else if bitGet present i = true then
      heldSpans present leaves limit is (if run = 0 then i else runFirst) (run + 1) (budget - 1)
    else spansOf leaves limit runFirst run ++ heldSpans present leaves limit is runFirst 0 budget

/-- The leaves held among some. -/
def heldOf (present : Bytes) (is : List ℕ) : List ℕ := is.filter (bitGet present)

/-- The spans offered for some wanted ranges. -/
def offeredSpans (present : Bytes) (leaves limit : ℕ) : List Range → ℕ → List Range
  | [], _ => []
  | w :: want, budget =>
    heldSpans present leaves limit (clipped leaves w) 0 0 budget ++
      offeredSpans present leaves limit want (budget - (heldOf present (clipped leaves w)).length)

variable {budget n a : ℕ}

theorem emitLast_cases (hin : Inside leaves runFirst run) (hmax : leaves ≤ maxLeaves)
    (hlimit : 0 < limit) (hroom : out.length ≤ cap) :
    let spans := out ++ spansOf leaves limit runFirst run
    emitLast leaves limit cap out runFirst run = (spans, true) ∧ spans.length ≤ cap ∨
      emitLast leaves limit cap out runFirst run = (spans.take cap, false) ∧
        cap < spans.length := by
  rw [emitLast]
  split
  next => exact emit_cases hin hmax hlimit hroom
  next hrun =>
    obtain rfl : run = 0 := by omega
    rw [spansOf, cutRun_zero, List.append_nil]
    exact .inl ⟨rfl, hroom⟩

/-- A run of held leaves that ends where a scan is. -/
def HeldTo (a runFirst run : ℕ) : Prop := run = 0 ∨ runFirst + run = a

theorem HeldTo.inside (h : HeldTo a runFirst run) (ha : a ≤ leaves) :
    Inside leaves runFirst run := h.imp_right fun hat => hat.le.trans ha

theorem HeldTo.grown (h : HeldTo a runFirst run) :
    HeldTo (a + 1) (if run = 0 then a else runFirst) (run + 1) := by
  refine .inr ?_
  split
  next hrun => rw [hrun]
  next hrun => rw [← Nat.add_assoc, h.resolve_left hrun]

section

variable (h : HeldTo a runFirst run) (ha : a + n ≤ leaves) (hmax : leaves ≤ maxLeaves)
  (hlimit : 0 < limit)
include h ha hmax hlimit

theorem cut_heldSpans :
    ∀ r ∈ heldSpans present leaves limit (List.range' a n) runFirst run budget,
      Cut leaves limit r := by
  induction n generalizing a runFirst run budget with
  | zero => exact cut_cutRun (h.inside ha) hmax hlimit
  | succ n ih =>
    have hin := h.inside (show a ≤ leaves by omega)
    intro r hr
    rw [List.range'_succ, heldSpans] at hr
    split at hr
    next => exact cut_cutRun hin hmax hlimit r hr
    next =>
      split at hr
      next => exact ih h.grown (by omega) r hr
      next =>
        rcases List.mem_append.1 hr with hr | hr
        · exact cut_cutRun hin hmax hlimit r hr
        · exact ih (.inl rfl) (by omega) r hr

/-- **The spans of a scan, end to end,** are the run it is in and the held leaves it comes past,
as far as the budget goes. -/
theorem indices_heldSpans :
    (heldSpans present leaves limit (List.range' a n) runFirst run budget).flatMap Range.indices =
      List.range' runFirst run ++ (heldOf present (List.range' a n)).take budget := by
  induction n generalizing a runFirst run budget with
  | zero =>
    rw [List.range'_zero, heldSpans,
      indices_cutRun (Nat.le_refl run) (h.inside ha) hmax hlimit, heldOf, List.filter_nil,
      List.take_nil, List.append_nil]
  | succ n ih =>
    have hruns := indices_cutRun (Nat.le_refl run) (h.inside (show a ≤ leaves by omega)) hmax
      hlimit
    rw [List.range'_succ, heldSpans, heldOf, List.filter_cons]
    split
    next hspent => rw [hruns, hspent, List.take_zero, List.append_nil]
    next hleft =>
      split
      next hheld =>
        obtain ⟨b, rfl⟩ := Nat.exists_eq_succ_of_ne_zero hleft
        rw [ih h.grown (by omega), Nat.succ_sub_one, List.take_succ_cons]
        rcases h with rfl | hat
        · rw [if_pos rfl, Nat.zero_add, List.range'_one]
          rfl
        · split
          next hrun =>
            rw [hrun, Nat.zero_add, List.range'_one]
            rfl
          next =>
            rw [List.range'_1_concat, hat, List.append_assoc]
            rfl
      next =>
        rw [List.flatMap_append, hruns, ih (.inl rfl) (by omega), List.range'_zero,
          List.nil_append]
        rfl

/-- **A scan with so much room** plans as many of the spans, and has left of its budget what the
held leaves did not take. -/
theorem offerRange_cases (hroom : out.length ≤ cap) :
    let spans := out ++ heldSpans present leaves limit (List.range' a n) runFirst run budget
    offerRange present leaves limit cap (List.range' a n) out runFirst run budget =
        (spans, budget - (heldOf present (List.range' a n)).length, true) ∧ spans.length ≤ cap ∨
      (∃ b, offerRange present leaves limit cap (List.range' a n) out runFirst run budget =
        (spans.take cap, b, false)) ∧ cap < spans.length := by
  induction n generalizing a runFirst run budget out with
  | zero =>
    rw [List.range'_zero, offerRange, heldSpans, heldOf, List.filter_nil]
    rcases emitLast_cases (h.inside ha) hmax hlimit hroom with ⟨heq, hle⟩ | ⟨heq, hlt⟩
    · exact .inl ⟨by rw [heq]; rfl, hle⟩
    · exact .inr ⟨⟨budget, by rw [heq]⟩, hlt⟩
  | succ n ih =>
    have hcases := emitLast_cases (h.inside (show a ≤ leaves by omega)) hmax hlimit hroom
    rw [List.range'_succ, offerRange, heldSpans, heldOf, List.filter_cons]
    split
    next hspent =>
      rcases hcases with ⟨heq, hle⟩ | ⟨heq, hlt⟩
      · exact .inl ⟨by rw [heq, hspent, Nat.zero_sub], hle⟩
      · exact .inr ⟨⟨budget, by rw [heq]⟩, hlt⟩
    next =>
      split
      next =>
        have := @ih (run + 1) out (if run = 0 then a else runFirst) (budget - 1) (a + 1) h.grown
          (by omega) hroom
        rwa [Nat.sub_sub, Nat.add_comm 1] at this
      next =>
        rcases hcases with ⟨heq, hle⟩ | ⟨heq, hlt⟩
        · have := @ih 0 (out ++ spansOf leaves limit runFirst run) runFirst budget (a + 1)
            (.inl rfl) (by omega) hle
          rw [heq]
          rwa [List.append_assoc] at this
        · refine .inr ⟨⟨budget, ?_⟩, ?_⟩
          · rw [heq, ← List.append_assoc, take_spans hlt]
            rfl
          · rw [← List.append_assoc, List.length_append]
            omega

end

theorem clipped_eq (leaves : ℕ) (w : Range) :
    clipped leaves w = List.range' w.first (min w.count (leaves - w.first)) := by
  rw [clipped]
  congr 1
  split <;> omega

theorem mem_clipped {w : Range} {i : ℕ} : i ∈ clipped leaves w ↔ w.Has i ∧ i < leaves := by
  rw [clipped_eq, List.mem_range'_1, Range.Has]
  omega

theorem heldSpans_spent : heldSpans present leaves limit (List.range' a n) 0 0 0 = [] := by
  cases n with
  | zero => exact cutRun_zero
  | succ n => exact (if_pos rfl).trans cutRun_zero

theorem offeredSpans_spent (want : List Range) : offeredSpans present leaves limit want 0 = [] := by
  induction want with
  | nil => rfl
  | cons w want ih =>
    rw [offeredSpans, Nat.zero_sub, ih, clipped, heldSpans_spent, List.append_nil]

/-- **An offer with so much room** is as many of the spans. -/
theorem offerFrom_eq_take (hmax : leaves ≤ maxLeaves) (hlimit : 0 < limit) (want : List Range)
    (hroom : out.length ≤ cap) :
    offerFrom present leaves limit cap want out budget =
      (out ++ offeredSpans present leaves limit want budget).take cap := by
  induction want generalizing out budget with
  | nil => rw [offerFrom, offeredSpans, List.append_nil, List.take_of_length_le hroom]
  | cons w want ih =>
    rw [offerFrom]
    split
    next hspent => rw [hspent, offeredSpans_spent, List.append_nil, List.take_of_length_le hroom]
    next =>
      split
      next hpast =>
        have hnone : clipped leaves w = [] := by
          rw [clipped_eq, Nat.sub_eq_zero_of_le hpast, Nat.min_zero, List.range'_zero]
        rw [ih hroom, offeredSpans, hnone, heldSpans, spansOf, cutRun_zero, List.nil_append]
        rfl
      next hin =>
        rw [offeredSpans, clipped_eq]
        have hscan : HeldTo w.first 0 0 := .inl rfl
        rcases offerRange_cases hscan (show w.first + min w.count (leaves - w.first) ≤ leaves by
          omega) hmax hlimit hroom with ⟨heq, hle⟩ | ⟨⟨b, heq⟩, hlt⟩
        · rw [heq]
          dsimp only
          rw [ih hle, List.append_assoc]
        · rw [heq]
          dsimp only
          rw [← List.append_assoc, take_spans hlt]

/-- **The spans offered, end to end,** are the held leaves of the wanted ranges, as far as the
budget goes. -/
theorem indices_offeredSpans (hmax : leaves ≤ maxLeaves) (hlimit : 0 < limit)
    (want : List Range) :
    (offeredSpans present leaves limit want budget).flatMap Range.indices =
      (want.flatMap fun w => heldOf present (clipped leaves w)).take budget := by
  induction want generalizing budget with
  | nil => rw [offeredSpans, List.flatMap_nil, List.flatMap_nil, List.take_nil]
  | cons w want ih =>
    have hspans : (heldSpans present leaves limit (clipped leaves w) 0 0 budget).flatMap
        Range.indices = (heldOf present (clipped leaves w)).take budget := by
      by_cases hin : w.first ≤ leaves
      · rw [clipped_eq, indices_heldSpans (.inl rfl) (by omega) hmax hlimit, List.range'_zero,
          List.nil_append]
      · rw [clipped_eq, show min w.count (leaves - w.first) = 0 by omega, List.range'_zero,
          heldSpans, spansOf, cutRun_zero, heldOf, List.filter_nil, List.take_nil,
          List.flatMap_nil]
    rw [offeredSpans, List.flatMap_append, hspans, ih, List.flatMap_cons, List.take_append]

/-! ## What the plans name -/

theorem pairwise_lackedFrom (s : SpoolState) (hstart : start < s.leaves) :
    (lackedFrom s start).Nodup := by
  refine List.Nodup.filter _ (List.Nodup.map_on (fun k hk m hm h => ?_) List.nodup_range)
  rw [← planAt_eq_mod hstart (List.mem_range.1 hk),
    ← planAt_eq_mod hstart (List.mem_range.1 hm)] at h
  rw [List.mem_range] at hk hm
  unfold planAt at h
  split at h <;> split at h <;> omega

theorem mem_lackedFrom (hstart : start < s.leaves) {i : ℕ} :
    i ∈ lackedFrom s start ↔ i < s.leaves ∧ bitGet s.present i = false := by
  rw [lackedFrom, List.mem_filter, List.mem_map, Bool.not_eq_true']
  refine and_congr_left fun _ => ⟨?_, fun hi => ?_⟩
  · rintro ⟨step, -, rfl⟩
    exact Nat.mod_lt _ (by omega)
  · by_cases hle : start ≤ i
    · exact ⟨i - start, List.mem_range.2 (by omega), by
        rw [Nat.add_sub_cancel' hle, Nat.mod_eq_of_lt hi]⟩
    · refine ⟨i + s.leaves - start, List.mem_range.2 (by omega), ?_⟩
      rw [show start + (i + s.leaves - start) = i + s.leaves by omega, Nat.add_mod_right,
        Nat.mod_eq_of_lt hi]

/-- What a plan names: subtrees, and missing leaves alone. -/
def Planned (leaves : ℕ) (present : Bytes) (out : List Range) : Prop :=
  ∀ r ∈ out, Part 0 leaves r.first r.count ∧ ∀ i, r.Has i → bitGet present i = false

/-- A leaf that a plan names. -/
def Named (out : List Range) (i : ℕ) : Prop := ∃ r ∈ out, r.Has i

/-- A plan is the ranges its caller has room for, of those that cover what is missing. -/
theorem ranges_of_planWant {maxPerRange : ℕ} {plan : List Range} (hmax : s.leaves ≤ maxLeaves)
    (h : planWant s start maxPerRange cap = .ok plan) :
    start < s.leaves ∧ ∃ full : List Range, plan = full.take cap ∧
      (∀ r ∈ full, Cut s.leaves maxPerRange r) ∧
      full.flatMap Range.indices = lackedFrom s start := by
  by_cases hbad : maxPerRange = 0 ∨ s.leaves = 0 ∨ s.leaves ≤ start
  · rw [planWant] at h
    split_ifs at h with hzero hshort
    omega
  · have hstart : start < s.leaves := by omega
    obtain ⟨full, htake, hcut, hfull⟩ := @planWant_ranges start s maxPerRange hstart hmax (by omega)
    rw [htake] at h
    exact ⟨hstart, full, (Except.ok.inj h).symm, hcut, hfull⟩

/-- **A plan** names subtrees of missing leaves, and every missing leaf where it has room
left. -/
theorem planWant_spec {maxPerRange : ℕ} {plan : List Range} (hmax : s.leaves ≤ maxLeaves)
    (h : planWant s start maxPerRange cap = .ok plan) :
    Planned s.leaves s.present plan ∧ (plan.length < cap →
      ∀ i < s.leaves, bitGet s.present i = false → Named plan i) := by
  obtain ⟨hstart, full, rfl, hcut, hfull⟩ := ranges_of_planWant hmax h
  refine ⟨fun r hr => ⟨(hcut r (List.mem_of_mem_take hr)).1, fun i hi => ?_⟩,
    fun hroom i hi hmissing => ?_⟩
  · refine ((mem_lackedFrom hstart).1 ?_).2
    rw [← hfull]
    exact List.mem_flatMap.2 ⟨r, List.mem_of_mem_take hr, Range.mem_indices.2 hi⟩
  · rw [List.take_of_length_le (by rw [List.length_take] at hroom; omega)]
    have hnamed := (mem_lackedFrom hstart).2 ⟨hi, hmissing⟩
    rw [← hfull] at hnamed
    obtain ⟨r, hr, hi⟩ := List.mem_flatMap.1 hnamed
    exact ⟨r, hr, Range.mem_indices.1 hi⟩

/-- A plan that is the whole blob in one range begins where the blob does. -/
theorem start_of_whole {full : List Range} {r : Range} (hstart : start < s.leaves)
    (hfull : full.flatMap Range.indices = lackedFrom s start) (hr : r ∈ full) (hfirst : r.first = 0)
    (hcount : r.count = s.leaves) : start = 0 := by
  have hsub : r.indices.Sublist (lackedFrom s start) :=
    hfull ▸ List.sublist_flatten_of_mem (List.mem_map_of_mem hr)
  have hwalk : (lackedFrom s start).Sublist
      ((List.range s.leaves).map fun step => (start + step) % s.leaves) := List.filter_sublist
  have heq := (hsub.trans hwalk).eq_of_length (by
    rw [Range.indices, List.length_range', List.length_map, List.length_range, hcount])
  have hhead := congrArg (fun l => l[0]?) heq
  rw [Range.indices, hfirst, hcount, ← List.range_eq_range'] at hhead
  simpa [List.getElem?_range, show 0 < s.leaves by omega, Nat.mod_eq_of_lt hstart] using hhead.symm

/-- What a plan of what is wanted names: canonical spans that are few enough, no two with a leaf
in common, the missing leaves and no others, in circular order and not across the end of the
blob. -/
structure Wants (s : SpoolState) (start limit : ℕ) (full : List Range) : Prop where
  spans : ∀ r ∈ full, spanIsCanonical s.leaves r.first r.count = true ∧ r.count ≤ limit
  apart : full.Pairwise fun r t => ∀ i, ¬(r.Has i ∧ t.Has i)
  missing : ∀ i, (∃ r ∈ full, r.Has i) ↔ i < s.leaves ∧ bitGet s.present i = false
  inOrder : full.flatMap Range.indices = lackedFrom s start
  unwrapped : ∀ r ∈ full, r.Has (s.leaves - 1) → r.Has 0 → start = 0

/-- What an offer names: canonical spans of held leaves that one of the ranges looked at wants,
no more leaves than the budget, and all that are so wanted where budget and room are left. -/
structure Offers (s : SpoolState) (want : List Range) (maxLeaves cap : ℕ) (plan : List Range) :
    Prop where
  spans : ∀ r ∈ plan, spanIsCanonical s.leaves r.first r.count = true ∧
    (∀ i, r.Has i → bitGet s.present i = true) ∧
    ∃ w ∈ want.take spoolMaxWant, ∀ i, r.Has i → w.Has i
  total : (plan.map Range.count).sum ≤ maxLeaves
  all : (plan.map Range.count).sum < maxLeaves → plan.length < cap →
    ∀ w ∈ want.take spoolMaxWant, ∀ i, w.Has i → i < s.leaves → bitGet s.present i = true →
      ∃ r ∈ plan, r.Has i

theorem length_indices (plan : List Range) :
    (plan.flatMap Range.indices).length = (plan.map Range.count).sum := by
  rw [List.length_flatMap]
  exact congrArg List.sum (List.map_congr_left fun r _ => List.length_range')

theorem wants_of_ranges {full : List Range} (hstart : start < s.leaves)
    (hmax : s.leaves ≤ maxLeaves) (hcut : ∀ r ∈ full, Cut s.leaves limit r)
    (hfull : full.flatMap Range.indices = lackedFrom s start) : Wants s start limit full := by
  have hnodup := List.nodup_flatMap.1 (hfull ▸ pairwise_lackedFrom s hstart)
  refine ⟨fun r hr => ⟨spanIsCanonical_of_part (hcut r hr).1 (by omega) hmax, (hcut r hr).2⟩,
    hnodup.2.imp fun hapart i hi =>
      hapart (Range.mem_indices.2 hi.1) (Range.mem_indices.2 hi.2), fun i => ?_, hfull,
    fun r hr hlast hzero => ?_⟩
  · rw [← mem_lackedFrom hstart, ← hfull, List.mem_flatMap]
    exact exists_congr fun r => and_congr_right fun _ => Range.mem_indices.symm
  · have hbounds := (hcut r hr).1.bounds
    rw [Range.Has] at hlast hzero
    exact start_of_whole hstart hfull hr (by omega) (by omega)

/-- **A plan names no range twice**: no two have a leaf in common. -/
theorem nodup_of_planWant {maxPerRange : ℕ} {plan : List Range} (hmax : s.leaves ≤ maxLeaves)
    (h : planWant s start maxPerRange cap = .ok plan) : plan.Nodup := by
  obtain ⟨hstart, full, rfl, hcut, hfull⟩ := ranges_of_planWant hmax h
  have hapart := (wants_of_ranges hstart hmax hcut hfull).apart
  refine (hapart.imp_of_mem fun {r} {t} hr _ hrt heq => ?_).sublist (List.take_sublist cap full)
  have hpos := (hcut r hr).1.pos (by omega)
  exact hrt r.first ⟨⟨Nat.le_refl _, by omega⟩, heq ▸ ⟨Nat.le_refl _, by omega⟩⟩

/-- A span offered is in a wanted range. -/
theorem mem_offeredSpans (hmax : leaves ≤ maxLeaves) (hlimit : 0 < limit) {want : List Range}
    {r : Range} (hr : r ∈ offeredSpans present leaves limit want budget) :
    Part 0 leaves r.first r.count ∧ ∃ w ∈ want, ∀ i, r.Has i → i ∈ heldOf present (clipped leaves w)
    := by
  induction want generalizing budget with
  | nil => cases hr
  | cons w want ih =>
    rw [offeredSpans] at hr
    rcases List.mem_append.1 hr with hr | hr
    · by_cases hin : w.first ≤ leaves
      · have hscan : HeldTo w.first 0 0 := .inl rfl
        have hle : w.first + min w.count (leaves - w.first) ≤ leaves := by omega
        rw [clipped_eq] at hr
        refine ⟨(cut_heldSpans hscan hle hmax hlimit r hr).1, w, List.mem_cons_self,
          fun i hi => ?_⟩
        have hmem : i ∈ (heldSpans present leaves limit
            (List.range' w.first (min w.count (leaves - w.first))) 0 0 budget).flatMap
              Range.indices := List.mem_flatMap.2 ⟨r, hr, Range.mem_indices.2 hi⟩
        rw [indices_heldSpans hscan hle hmax hlimit, List.range'_zero, List.nil_append] at hmem
        rw [clipped_eq]
        exact List.mem_of_mem_take hmem
      · rw [clipped_eq, show min w.count (leaves - w.first) = 0 by omega, List.range'_zero,
          heldSpans, spansOf, cutRun_zero] at hr
        cases hr
    · obtain ⟨hpart, w', hw', hin⟩ := ih hr
      exact ⟨hpart, w', List.mem_cons_of_mem _ hw', hin⟩

/-- **An offer** is what the spans with so much room come to. -/
theorem offers_of_planOffer {want : List Range} {budget : ℕ} (hsome : 0 < s.leaves)
    (hmax : s.leaves ≤ maxLeaves) (hbudget : 1 ≤ budget) (cap : ℕ) :
    ∃ plan, planOffer s want budget cap = .ok plan ∧ Offers s want budget cap plan := by
  have htake := @offerFrom_eq_take s.present s.leaves budget cap [] budget hmax hbudget
    (want.take spoolMaxWant) (Nat.zero_le cap)
  have hindices := @indices_offeredSpans s.present s.leaves budget budget hmax hbudget
    (want.take spoolMaxWant)
  rw [List.nil_append] at htake
  refine ⟨_, by rw [planOffer, if_neg (by omega), htake], fun r hr => ?_, ?_, ?_⟩
  · obtain ⟨hpart, w, hw, hin⟩ := mem_offeredSpans hmax hbudget (List.mem_of_mem_take hr)
    exact ⟨spanIsCanonical_of_part hpart hsome hmax, fun i hi => (List.mem_filter.1 (hin i hi)).2,
      w, hw, fun i hi => (mem_clipped.1 (List.mem_filter.1 (hin i hi)).1).1⟩
  · have hlen := congrArg List.length hindices
    rw [length_indices, List.length_take,
      ← List.take_append_drop cap (offeredSpans _ _ _ _ _), List.map_append, List.sum_append]
      at hlen
    omega
  · intro hleft hroom w hw i hi hin hheld
    have hwhole := List.take_of_length_le (show (offeredSpans s.present s.leaves budget
      (want.take spoolMaxWant) budget).length ≤ cap by rw [List.length_take] at hroom; omega)
    rw [hwhole] at hleft ⊢
    have hlen := congrArg List.length hindices
    rw [length_indices, List.length_take] at hlen
    replace hindices := hindices.trans (List.take_of_length_le (by omega))
    have hmem : i ∈ (want.take spoolMaxWant).flatMap fun w => heldOf s.present (clipped s.leaves w) :=
      List.mem_flatMap.2 ⟨w, hw, List.mem_filter.2 ⟨mem_clipped.2 ⟨hi, hin⟩, hheld⟩⟩
    rw [← hindices] at hmem
    obtain ⟨r, hr, hi⟩ := List.mem_flatMap.1 hmem
    exact ⟨r, hr, Range.mem_indices.1 hi⟩

/-- **Plans name what they are to.**  What is wanted from a leaf on is the beginning of one plan,
as long as there is room for; what is offered for any wanted ranges is held. -/
theorem plans_name (s : SpoolState) (hsome : 0 < s.leaves) (hmax : s.leaves ≤ spoolMaxLeaves) :
    (∀ start maxPerRange, start < s.leaves → 1 ≤ maxPerRange →
      ∃ full, (∀ cap, planWant s start maxPerRange cap = .ok (full.take cap)) ∧
        Wants s start maxPerRange full) ∧
    ∀ want budget cap, 1 ≤ budget →
      ∃ plan, planOffer s want budget cap = .ok plan ∧ Offers s want budget cap plan := by
  have hmax' : s.leaves ≤ maxLeaves := hmax.trans (Nat.pow_le_pow_right Nat.two_pos (by decide))
  refine ⟨fun start maxPerRange hstart hper => ?_, fun want budget cap hbudget =>
    offers_of_planOffer hsome hmax' hbudget cap⟩
  obtain ⟨full, htake, hcut, hfull⟩ := planWant_ranges hstart hmax' hper
  exact ⟨full, htake, wants_of_ranges hstart hmax' hcut hfull⟩

/-- A store of eleven leaves that holds the second and the tenth. -/
def elevenLeaves : SpoolState := ⟨0, 11, 2, [2, 2], fun _ => 0, []⟩

/-- From the eighth leaf on, and for three ranges of which two are not in it. -/
theorem plans_name_eleven :
    (∀ start maxPerRange, start < 11 → 1 ≤ maxPerRange →
      ∃ full, (∀ cap, planWant elevenLeaves start maxPerRange cap = .ok (full.take cap)) ∧
        Wants elevenLeaves start maxPerRange full) ∧
    (∀ want budget cap, 1 ≤ budget →
      ∃ plan, planOffer elevenLeaves want budget cap = .ok plan ∧
        Offers elevenLeaves want budget cap plan) ∧
    planWant elevenLeaves 7 4 9 = .ok [⟨7, 1⟩, ⟨8, 1⟩, ⟨10, 1⟩, ⟨0, 1⟩, ⟨2, 2⟩, ⟨4, 2⟩, ⟨6, 1⟩] ∧
    planOffer elevenLeaves [⟨2 ^ 64 - 1, 9⟩, ⟨3, 2 ^ 64 - 1⟩, ⟨9, 1⟩] 5 4 =
      .ok [⟨9, 1⟩, ⟨9, 1⟩] :=
  have h := plans_name elevenLeaves (by decide) (by decide)
  ⟨h.1, h.2, by decide +kernel, by decide +kernel⟩

end Spool
end Fuzznet
