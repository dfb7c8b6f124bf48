/-
# Planning a sweep

`catalog/sweep.c`: `fzn_catalog_sweep_capture`, with `fzn_catalog_keeps` of
`catalog/retention.c`.  Each entity an assertion names is decided once, where it first
comes: kept, its holders not determined, not here, too few others, or removable.  Removable
ones take the rows in the order they come, until the rows run out, and stand in the order of
their bytes.

What becomes of an entity is a matter of its distinct holders (`holderFacts_eq`), so the plan
is read off the distinct entities (`Captured`).  The order of the assertions is left with two
things to decide, and both are meant: whether this host is among the first
`HOLDER_SCRATCH` holders of an entity that has more, since where it is not nothing is
decided, and which removable entities got a row.  The log is left out.
-/

import Fuzznet.Catalog.Holders
import Fuzznet.Lib.SortBy

namespace Fuzznet
namespace Catalog

open Wire

/-! ## Retention -/

/-- `fzn_catalog_retention_t`. -/
inductive Retention
  | default
  | keep
  | drop
  deriving DecidableEq, Repr

/-- `fzn_catalog_hold_t`. -/
structure Hold where
  entity : Bytes
  mode : Retention
  until_ : UInt64
  then_ : Retention
  deriving DecidableEq, Repr

/-- `fzn_catalog_holds_t`: the rows used, and the catalogue's own bit. -/
structure Holds where
  rows : List Hold
  keepAll : Bool
  deriving DecidableEq, Repr

/-- `fzn_catalog_retention_of`. -/
def retentionOf (holds : Option Holds) (entity : Bytes) (now : UInt64) : Retention :=
  match holds with
  | none => .default
  | some holds =>
    if entity.length ≠ entityLen then .default
    else match holds.rows.find? fun row => row.entity == entity with
      | none => .default
      | some row => if row.until_ ≠ 0 ∧ row.until_ ≤ now then row.then_ else row.mode

/-- `fzn_catalog_keeps`. -/
def keeps (holds : Option Holds) (entity : Bytes) (now : UInt64) : Bool :=
  match retentionOf holds entity now with
  | .keep => true
  | .drop => false
  | .default => holds.any Holds.keepAll

/-! ## The plan -/

/-- `HOLDER_SCRATCH`. -/
def holderScratch : ℕ := 16

/-- `holder_facts`: whether this host holds the entity and how many others do, or nothing when
this host may be among the holders that did not fit. -/
def holderFacts (set : List Assertion) (entity self : Bytes) : Option (Bool × ℕ) :=
  let who := holders set entity holderScratch
  let mine := who.1.any fun w => w.issuer = self
  if mine = false ∧ 0 < who.2 then none
  else some (mine, who.1.length + who.2 - if mine then 1 else 0)

/-- What `fzn_catalog_sweep_capture` is asked beside the assertions. -/
structure SweepArgs where
  holds : Option Holds
  self : Bytes
  minOthers : ℕ
  now : UInt64
  capacity : ℕ

/-- What becomes of an entity before the rows are looked at. -/
inductive Outcome
  | retained
  | incomplete
  | absent
  | lastCopy
  | removable
  deriving DecidableEq, Repr

/-- The guards of `fzn_catalog_sweep_capture`, in their order. -/
def outcomeOf (q : SweepArgs) (set : List Assertion) (entity : Bytes) : Outcome :=
  if keeps q.holds entity q.now then .retained
  else match holderFacts set entity q.self with
    | none => .incomplete
    | some (selfHolds, others) =>
      if selfHolds = false then .absent
      else if 0 < q.minOthers ∧ others < q.minOthers then .lastCopy
      else .removable

/-- `fzn_catalog_sweep_plan_t`. -/
structure SweepPlan where
  planned : ℕ
  retained : ℕ
  lastCopy : ℕ
  absent : ℕ
  incomplete : ℕ
  truncated : ℕ
  deriving DecidableEq, Repr

/-- The bytes of an entity as `memcmp` orders them. -/
def entityRank (entity : Bytes) : ℕ := getBe entity 0 entityLen

/-- The loop of `insert_sorted`, from the last row on. -/
def insertBack (row : Bytes) : List Bytes → List Bytes
  | [] => [row]
  | r :: rows => if entityRank row < entityRank r then r :: insertBack row rows else row :: r :: rows

/-- `insert_sorted`. -/
def insertSorted (rows : List Bytes) (row : Bytes) : List Bytes :=
  (insertBack row rows.reverse).reverse

/-- One pass of the loop over the assertions, `before` being those passed: the counters and the
rows. -/
def sweepStep (q : SweepArgs) (set before : List Assertion) (st : SweepPlan × List Bytes)
    (a : Assertion) : SweepPlan × List Bytes :=
  if a.entity.length ≠ entityLen then st
  else if before.any fun b => b.entity = a.entity then st
  else match outcomeOf q set a.entity with
    | .retained => ({ st.1 with retained := st.1.retained + 1 }, st.2)
    | .incomplete => ({ st.1 with incomplete := st.1.incomplete + 1 }, st.2)
    | .absent => ({ st.1 with absent := st.1.absent + 1 }, st.2)
    | .lastCopy => ({ st.1 with lastCopy := st.1.lastCopy + 1 }, st.2)
    | .removable =>
      if q.capacity ≤ st.2.length then ({ st.1 with truncated := st.1.truncated + 1 }, st.2)
      else (st.1, insertSorted st.2 a.entity)

/-- The loop over what comes behind `before`. -/
def sweepFrom (q : SweepArgs) (set : List Assertion) :
    List Assertion → List Assertion → SweepPlan × List Bytes → SweepPlan × List Bytes
  | _, [], st => st
  | before, a :: rest, st => sweepFrom q set (before ++ [a]) rest (sweepStep q set before st a)

/-- `fzn_catalog_sweep_capture`: the plan and the rows, or nothing for a malformed question. -/
def sweepCapture (q : SweepArgs) (set : List Assertion) : Option (SweepPlan × List Bytes) :=
  if q.self.length = 0 ∨ q.capacity = 0 then none
  else
    let st := sweepFrom q set [] set (⟨0, 0, 0, 0, 0, 0⟩, [])
    some ({ st.1 with planned := st.2.length }, st.2)

/-! ## Read off the distinct holders -/

section Holders

variable {set set' : List Assertion} {entity self : Bytes} {q : SweepArgs}

/-- What the planner knows of the holders. -/
theorem holderFacts_eq (set : List Assertion) (entity self : Bytes) :
    holderFacts set entity self =
      if self ∈ (holdersOf set entity).take holderScratch then
        some (true, (holdersOf set entity).length - 1)
      else if (holdersOf set entity).length ≤ holderScratch then
        some (false, (holdersOf set entity).length)
      else none := by
  obtain ⟨hlisted, hdropped⟩ := holders_eq set entity holderScratch
  have hlen : (holders set entity holderScratch).1.length =
      min holderScratch (holdersOf set entity).length := by
    rw [← List.length_take, ← hlisted, List.length_map]
  have hmine : ((holders set entity holderScratch).1.any fun w => decide (w.issuer = self)) = true ↔
      self ∈ (holdersOf set entity).take holderScratch := by
    rw [← hlisted, List.any_eq_true, List.mem_map]
    simp
  have htotal : (holders set entity holderScratch).1.length +
      (holders set entity holderScratch).2 = (holdersOf set entity).length := by omega
  rw [holderFacts, htotal]
  by_cases hin : self ∈ (holdersOf set entity).take holderScratch
  · rw [if_pos hin, hmine.2 hin, if_neg (by simp), if_pos rfl]
  · rw [if_neg hin, Bool.eq_false_iff.2 fun h => hin (hmine.1 h)]
    by_cases hfits : (holdersOf set entity).length ≤ holderScratch
    · rw [if_pos hfits, if_neg (by omega), if_neg Bool.false_ne_true, Nat.sub_zero]
    · rw [if_neg hfits, if_pos ⟨rfl, by omega⟩]

/-- **The order decides nothing** where this host is among few enough holders, or is none. -/
theorem holderFacts_perm (h : set.Perm set')
    (hfew : self ∈ holdersOf set entity → (holdersOf set entity).length ≤ holderScratch) :
    holderFacts set' entity self = holderFacts set entity self := by
  have hperm : (holdersOf set entity).Perm (holdersOf set' entity) := holdersOf_perm h
  rw [holderFacts_eq, holderFacts_eq, hperm.length_eq]
  by_cases hfits : (holdersOf set' entity).length ≤ holderScratch
  · rw [List.take_of_length_le hfits, List.take_of_length_le (by rwa [hperm.length_eq])]
    simp only [hperm.mem_iff]
  · rw [hperm.length_eq] at hfew
    have hnone : self ∉ holdersOf set entity := fun hin => hfits (hfew hin)
    have hnone' : self ∉ holdersOf set' entity := fun hin => hnone (hperm.mem_iff.2 hin)
    rw [if_neg fun hin => hnone (List.mem_of_mem_take hin),
      if_neg fun hin => hnone' (List.mem_of_mem_take hin)]

theorem outcomeOf_retained_iff :
    outcomeOf q set entity = .retained ↔ keeps q.holds entity q.now = true := by
  unfold outcomeOf
  split_ifs with hkeeps
  · exact iff_of_true rfl hkeeps
  · refine iff_of_false ?_ hkeeps
    split
    · exact nofun
    · split_ifs <;> exact nofun

/-- **What is removable**: not kept, held here, and by enough others. -/
theorem removable_facts (h : outcomeOf q set entity = .removable) :
    keeps q.holds entity q.now = false ∧ q.self ∈ holdersOf set entity ∧
      q.minOthers ≤ (holdersOf set entity).length - 1 := by
  rw [outcomeOf, holderFacts_eq] at h
  by_cases hkeeps : keeps q.holds entity q.now = true
  · rw [if_pos hkeeps] at h
    cases h
  rw [if_neg hkeeps] at h
  by_cases hin : q.self ∈ (holdersOf set entity).take holderScratch
  · rw [if_pos hin] at h
    dsimp only at h
    rw [if_neg (by simp)] at h
    split_ifs at h with hguard
    exact ⟨Bool.eq_false_iff.2 hkeeps, List.mem_of_mem_take hin, by omega⟩
  · rw [if_neg hin] at h
    by_cases hfits : (holdersOf set entity).length ≤ holderScratch
    · rw [if_pos hfits] at h
      cases h
    · rw [if_neg hfits] at h
      cases h

/-- **What is absent**: not kept, and this host is none of its holders, which all fit. -/
theorem outcomeOf_absent_iff : outcomeOf q set entity = .absent ↔
    keeps q.holds entity q.now = false ∧ q.self ∉ holdersOf set entity ∧
      (holdersOf set entity).length ≤ holderScratch := by
  rw [outcomeOf, holderFacts_eq]
  by_cases hkeeps : keeps q.holds entity q.now = true
  · rw [if_pos hkeeps]
    exact iff_of_false nofun fun h => absurd (hkeeps.symm.trans h.1) Bool.noConfusion
  rw [if_neg hkeeps, and_iff_right (Bool.eq_false_iff.2 hkeeps)]
  by_cases hin : q.self ∈ (holdersOf set entity).take holderScratch
  · rw [if_pos hin]
    refine iff_of_false ?_ fun h => h.1 (List.mem_of_mem_take hin)
    dsimp only
    rw [if_neg Bool.noConfusion]
    split_ifs <;> exact nofun
  · rw [if_neg hin]
    by_cases hfits : (holdersOf set entity).length ≤ holderScratch
    · rw [if_pos hfits]
      rw [List.take_of_length_le hfits] at hin
      exact iff_of_true rfl ⟨hin, hfits⟩
    · rw [if_neg hfits]
      exact iff_of_false nofun fun h => hfits h.2

/-- An entity's outcome is the same in every order, where this host is among few enough of its
holders or keeps it. -/
theorem outcomeOf_perm (h : set.Perm set')
    (hfew : keeps q.holds entity q.now = false → q.self ∈ holdersOf set entity →
      (holdersOf set entity).length ≤ holderScratch) :
    outcomeOf q set' entity = outcomeOf q set entity := by
  rw [outcomeOf, outcomeOf]
  by_cases hkeeps : keeps q.holds entity q.now = true
  · rw [if_pos hkeeps, if_pos hkeeps]
  · rw [if_neg hkeeps, if_neg hkeeps, holderFacts_perm h (hfew (Bool.eq_false_iff.2 hkeeps))]

end Holders

/-! ## Read off the distinct entities -/

/-- The entities the planner decides, each where it first comes. -/
def population (set : List Assertion) : List Bytes :=
  Lib.firsts ((set.map Assertion.entity).filter fun e => e.length = entityLen)

/-- How many of some entities come to an outcome. -/
def countOutcome (q : SweepArgs) (set : List Assertion) (o : Outcome) (pop : List Bytes) : ℕ :=
  pop.countP fun e => outcomeOf q set e = o

/-- The removable ones among some entities. -/
def removables (q : SweepArgs) (set : List Assertion) (pop : List Bytes) : List Bytes :=
  pop.filter fun e => outcomeOf q set e = .removable

/-- Two entities of the planner with the same rank are one. -/
theorem entityRank_inj {a b : Bytes} (ha : a.length = entityLen) (hb : b.length = entityLen)
    (h : entityRank a = entityRank b) : a = b := by
  have hback : ∀ e : Bytes, e.length = entityLen → putBe entityLen (entityRank e) = e := by
    intro e he
    rw [entityRank, putBe_getBe (by omega), List.drop_zero, List.take_of_length_le (by omega)]
  rw [← hback a ha, ← hback b hb, h]

theorem insertBack_perm (row : Bytes) (rows : List Bytes) :
    (insertBack row rows).Perm (row :: rows) := by
  induction rows with
  | nil => exact List.Perm.refl _
  | cons r rows ih =>
    rw [insertBack]
    split_ifs
    · exact (ih.cons r).trans (List.Perm.swap row r rows)
    · exact List.Perm.refl _

theorem insertBack_descending {row : Bytes} {rows : List Bytes}
    (h : rows.Pairwise fun a b => entityRank b < entityRank a)
    (hne : ∀ r ∈ rows, entityRank r ≠ entityRank row) :
    (insertBack row rows).Pairwise fun a b => entityRank b < entityRank a := by
  induction rows with
  | nil => exact List.pairwise_singleton _ _
  | cons r rows ih =>
    obtain ⟨hfirst, hrest⟩ := List.pairwise_cons.1 h
    obtain ⟨hr, hne⟩ := List.forall_mem_cons.1 hne
    rw [insertBack]
    split_ifs with hlt
    · refine List.pairwise_cons.2 ⟨fun x hx => ?_, ih hrest hne⟩
      rcases List.mem_cons.1 ((insertBack_perm row rows).mem_iff.1 hx) with rfl | hx
      · exact hlt
      · exact hfirst x hx
    · refine List.pairwise_cons.2 ⟨List.forall_mem_cons.2 ⟨by omega, fun x hx => ?_⟩, h⟩
      have hlt' := hfirst x hx
      omega

theorem insertSorted_perm (rows : List Bytes) (row : Bytes) :
    (insertSorted rows row).Perm (rows ++ [row]) := by
  refine (List.reverse_perm _).trans ((insertBack_perm row rows.reverse).trans ?_)
  exact ((List.reverse_perm rows).cons row).trans (List.perm_append_singleton row rows).symm

/-- A row put in where no row of its rank is leaves the rows in order. -/
theorem insertSorted_ascending {rows : List Bytes} {row : Bytes}
    (h : rows.Pairwise fun a b => entityRank a < entityRank b)
    (hne : ∀ r ∈ rows, entityRank r ≠ entityRank row) :
    (insertSorted rows row).Pairwise fun a b => entityRank a < entityRank b :=
  List.pairwise_reverse.2 (insertBack_descending (List.pairwise_reverse.2 h)
    fun r hr => hne r (List.mem_reverse.1 hr))

/-- The counters and the rows behind some distinct entities. -/
structure Captured (q : SweepArgs) (set : List Assertion) (pop : List Bytes)
    (st : SweepPlan × List Bytes) : Prop where
  retained : st.1.retained = countOutcome q set .retained pop
  incomplete : st.1.incomplete = countOutcome q set .incomplete pop
  absent : st.1.absent = countOutcome q set .absent pop
  lastCopy : st.1.lastCopy = countOutcome q set .lastCopy pop
  rows : st.2.Perm ((removables q set pop).take q.capacity)
  ascending : st.2.Pairwise fun a b => entityRank a < entityRank b
  truncated : st.1.truncated = (removables q set pop).length - q.capacity

section Capture

variable {q : SweepArgs} {set before : List Assertion} {st : SweepPlan × List Bytes} {a : Assertion}

theorem countOutcome_snoc (o : Outcome) (pop : List Bytes) (e : Bytes) :
    countOutcome q set o (pop ++ [e]) =
      countOutcome q set o pop + if outcomeOf q set e = o then 1 else 0 := by
  rw [countOutcome, List.countP_append, List.countP_singleton, countOutcome]
  simp

theorem removables_snoc (pop : List Bytes) (e : Bytes) :
    removables q set (pop ++ [e]) =
      removables q set pop ++ if outcomeOf q set e = .removable then [e] else [] := by
  rw [removables, List.filter_append, removables]
  congr 1
  simp [List.filter_singleton]

variable {pop : List Bytes} {e : Bytes}

/-- An entity that is not removable leaves the rows alone. -/
theorem removables_snoc_ne (h : outcomeOf q set e ≠ .removable) :
    removables q set (pop ++ [e]) = removables q set pop := by
  rw [removables_snoc, if_neg h, List.append_nil]

/-- An entity counted: one counter goes up and the rows stay. -/
theorem Captured.counted {plan : SweepPlan} (h : Captured q set pop st)
    (hne : outcomeOf q set e ≠ .removable)
    (hretained : plan.retained = st.1.retained + if outcomeOf q set e = .retained then 1 else 0)
    (hincomplete :
      plan.incomplete = st.1.incomplete + if outcomeOf q set e = .incomplete then 1 else 0)
    (habsent : plan.absent = st.1.absent + if outcomeOf q set e = .absent then 1 else 0)
    (hlastCopy : plan.lastCopy = st.1.lastCopy + if outcomeOf q set e = .lastCopy then 1 else 0)
    (htruncated : plan.truncated = st.1.truncated) :
    Captured q set (pop ++ [e]) (plan, st.2) where
  retained := by rw [countOutcome_snoc, hretained, h.retained]
  incomplete := by rw [countOutcome_snoc, hincomplete, h.incomplete]
  absent := by rw [countOutcome_snoc, habsent, h.absent]
  lastCopy := by rw [countOutcome_snoc, hlastCopy, h.lastCopy]
  rows := by
    rw [removables_snoc_ne hne]
    exact h.rows
  ascending := h.ascending
  truncated := by
    rw [removables_snoc_ne hne]
    exact htruncated.trans h.truncated

theorem Captured.length_rows (h : Captured q set pop st) :
    st.2.length = min q.capacity (removables q set pop).length := by
  rw [h.rows.length_eq, List.length_take]

/-- A removable entity takes a row, or is counted when the rows have run out. -/
theorem Captured.planned (h : Captured q set pop st) (ho : outcomeOf q set e = .removable)
    (hnew : ∀ r ∈ st.2, entityRank r ≠ entityRank e) :
    Captured q set (pop ++ [e])
      (if q.capacity ≤ st.2.length then ({ st.1 with truncated := st.1.truncated + 1 }, st.2)
      else (st.1, insertSorted st.2 e)) := by
  have hcount : ∀ o, o ≠ .removable →
      countOutcome q set o (pop ++ [e]) = countOutcome q set o pop := fun o hne => by
    rw [countOutcome_snoc, ho, if_neg hne.symm, Nat.add_zero]
  have hlen := h.length_rows
  have htruncated := h.truncated
  have hrows : removables q set (pop ++ [e]) = removables q set pop ++ [e] := by
    rw [removables_snoc, if_pos ho]
  split_ifs with hfull
  · refine ⟨?_, ?_, ?_, ?_, ?_, h.ascending, ?_⟩
    · exact h.retained.trans (hcount .retained nofun).symm
    · exact h.incomplete.trans (hcount .incomplete nofun).symm
    · exact h.absent.trans (hcount .absent nofun).symm
    · exact h.lastCopy.trans (hcount .lastCopy nofun).symm
    · rw [hrows, List.take_append_of_le_length (by omega)]
      exact h.rows
    · rw [hrows, List.length_append, List.length_singleton]
      dsimp only
      omega
  · refine ⟨?_, ?_, ?_, ?_, ?_, insertSorted_ascending h.ascending hnew, ?_⟩
    · exact h.retained.trans (hcount .retained nofun).symm
    · exact h.incomplete.trans (hcount .incomplete nofun).symm
    · exact h.absent.trans (hcount .absent nofun).symm
    · exact h.lastCopy.trans (hcount .lastCopy nofun).symm
    · have hall := h.rows
      rw [List.take_of_length_le (by omega)] at hall
      rw [hrows, List.take_of_length_le (by rw [List.length_append, List.length_singleton]; omega)]
      exact (insertSorted_perm st.2 e).trans (hall.append_right [e])
    · rw [hrows, List.length_append, List.length_singleton]
      dsimp only
      omega

theorem length_of_mem_population (h : e ∈ population set) : e.length = entityLen := by
  simpa using (List.mem_filter.1 (Lib.mem_firsts.1 h)).2

/-- **One assertion**: its entity is decided if it is the first that names it. -/
theorem Captured.step (h : Captured q set (population before) st) :
    Captured q set (population (before ++ [a])) (sweepStep q set before st a) := by
  have hsplit : (before ++ [a]).map Assertion.entity = before.map Assertion.entity ++ [a.entity] := by
    rw [List.map_append, List.map_singleton]
  rw [sweepStep]
  by_cases hlen : a.entity.length ≠ entityLen
  · have hsame : population (before ++ [a]) = population before := by
      rw [population, hsplit, List.filter_append, List.filter_cons_of_neg (by simpa using hlen),
        List.filter_nil, List.append_nil, population]
    rw [if_pos hlen, hsame]
    exact h
  have hfilter : ((before ++ [a]).map Assertion.entity).filter (fun e => e.length = entityLen) =
      (before.map Assertion.entity).filter (fun e => e.length = entityLen) ++ [a.entity] := by
    rw [hsplit, List.filter_append, List.filter_cons_of_pos (by simpa using hlen), List.filter_nil]
  rw [if_neg hlen, population, hfilter]
  have hmet : (before.any fun b => decide (b.entity = a.entity)) = true ↔
      a.entity ∈ (before.map Assertion.entity).filter (fun e => e.length = entityLen) := by
    rw [List.any_eq_true, List.mem_filter, List.mem_map]
    simp [not_not.1 hlen]
  by_cases hseen : (before.any fun b => decide (b.entity = a.entity)) = true
  · rw [if_pos hseen, Lib.firsts_append_of_mem (hmet.1 hseen)]
    exact h
  have hnew : a.entity ∉ population before := fun hin => hseen (hmet.2 (Lib.mem_firsts.1 hin))
  rw [if_neg hseen, Lib.firsts_append_of_not_mem fun hin => hseen (hmet.2 hin)]
  rw [show Lib.firsts ((before.map Assertion.entity).filter fun e => e.length = entityLen) =
    population before from rfl]
  have hrank : ∀ r ∈ st.2, entityRank r ≠ entityRank a.entity := by
    intro r hr heq
    have hin : r ∈ population before :=
      (List.mem_filter.1 (List.mem_of_mem_take (h.rows.mem_iff.1 hr))).1
    rw [entityRank_inj (length_of_mem_population hin) (not_not.1 hlen) heq] at hin
    exact hnew hin
  cases ho : outcomeOf q set a.entity with
  | retained =>
    dsimp only
    refine h.counted (by rw [ho]; exact nofun) ?_ ?_ ?_ ?_ rfl <;> simp [ho]
  | incomplete =>
    dsimp only
    refine h.counted (by rw [ho]; exact nofun) ?_ ?_ ?_ ?_ rfl <;> simp [ho]
  | absent =>
    dsimp only
    refine h.counted (by rw [ho]; exact nofun) ?_ ?_ ?_ ?_ rfl <;> simp [ho]
  | lastCopy =>
    dsimp only
    refine h.counted (by rw [ho]; exact nofun) ?_ ?_ ?_ ?_ rfl <;> simp [ho]
  | removable => exact h.planned ho hrank

/-- **All the assertions.** -/
theorem Captured.run (h : Captured q set (population before) st) (rest : List Assertion) :
    Captured q set (population (before ++ rest)) (sweepFrom q set before rest st) := by
  induction rest generalizing before st with
  | nil => rwa [List.append_nil]
  | cons a rest ih =>
    rw [List.append_cons, sweepFrom]
    exact ih h.step

/-- **A capture is read off the distinct entities.** -/
theorem sweepCapture_captured {plan : SweepPlan} {rows : List Bytes}
    (h : sweepCapture q set = some (plan, rows)) :
    Captured q set (population set) (plan, rows) ∧ plan.planned = rows.length := by
  rw [sweepCapture] at h
  split_ifs at h
  obtain ⟨rfl, rfl⟩ := Prod.mk.inj (Option.some.inj h)
  have hnone : Captured q set (population []) (⟨0, 0, 0, 0, 0, 0⟩, []) := by
    refine ⟨rfl, rfl, rfl, rfl, ?_, List.Pairwise.nil, ?_⟩
    · simp [population, removables]
    · simp [population, removables]
  have hrun := hnone.run set
  rw [List.nil_append] at hrun
  exact ⟨⟨hrun.retained, hrun.incomplete, hrun.absent, hrun.lastCopy, hrun.rows, hrun.ascending,
    hrun.truncated⟩, rfl⟩

/-- Every entity is counted once. -/
theorem countOutcome_sum (set : List Assertion) (pop : List Bytes) :
    countOutcome q set .retained pop + countOutcome q set .incomplete pop +
      countOutcome q set .absent pop + countOutcome q set .lastCopy pop +
      (removables q set pop).length = pop.length := by
  induction pop using List.reverseRecOn with
  | nil => rfl
  | append_singleton pop e ih =>
    rw [countOutcome_snoc, countOutcome_snoc, countOutcome_snoc, countOutcome_snoc,
      removables_snoc, List.length_append, List.length_append, List.length_singleton]
    cases outcomeOf q set e <;> simp <;> omega

/-- The same entities are decided in every order. -/
theorem population_perm {set' : List Assertion} (h : set.Perm set') :
    (population set).Perm (population set') :=
  Lib.firsts_perm fun _ => ((h.map _).filter _).mem_iff

theorem length_population (set : List Assertion) : (population set).length =
    ((set.map Assertion.entity).filter fun e => e.length = entityLen).toFinset.card :=
  Lib.length_firsts _

/-- Outcomes that agree are counted alike. -/
theorem countOutcome_perm {set' : List Assertion} {o : Outcome} (h : set.Perm set')
    (hsame : ∀ e ∈ population set, outcomeOf q set' e = o ↔ outcomeOf q set e = o) :
    countOutcome q set' o (population set') = countOutcome q set o (population set) := by
  rw [countOutcome, ← (population_perm h).countP_eq, countOutcome]
  exact List.countP_congr fun e he => by simpa using hsame e he

/-- **A sweep plan.**  The rows are strictly ascending, and each is an entity this host does not
keep, holds by a live holder assertion, and at least `minOthers` other hosts hold by one.  The
counts add up to the distinct entities.  In every order of the assertions the plan keeps as
many and finds as many absent; it has the same counts if no entity it may remove has more than
`HOLDER_SCRATCH` holders, and the same rows if, besides, none was truncated. -/
theorem sweepCapture_plan {plan : SweepPlan} {rows : List Bytes}
    (h : sweepCapture q set = some (plan, rows)) :
    (rows.Pairwise fun a b => entityRank a < entityRank b) ∧
    (∀ row ∈ rows, keeps q.holds row q.now = false ∧
      (∃ a ∈ set, a.live = true ∧ a.capability = .holder ∧ a.entity = row ∧ a.issuer = q.self) ∧
      ∃ others : Finset Bytes, q.minOthers ≤ others.card ∧ ∀ host ∈ others, host ≠ q.self ∧
        ∃ a ∈ set, a.live = true ∧ a.capability = .holder ∧ a.entity = row ∧ a.issuer = host) ∧
    plan.retained + plan.incomplete + plan.absent + plan.lastCopy + plan.truncated + plan.planned =
      ((set.map Assertion.entity).filter fun e => e.length = entityLen).toFinset.card ∧
    ∀ set', set.Perm set' → ∃ plan' rows', sweepCapture q set' = some (plan', rows') ∧
      plan'.retained = plan.retained ∧ plan'.absent = plan.absent ∧
      ((∀ e ∈ set.map Assertion.entity, keeps q.holds e q.now = false →
          q.self ∈ holdersOf set e → (holdersOf set e).length ≤ holderScratch) →
        plan' = plan ∧ (plan.truncated = 0 → rows' = rows)) := by
  obtain ⟨hcaptured, hplanned⟩ := sweepCapture_captured h
  have hrow : ∀ row ∈ rows, outcomeOf q set row = .removable := fun row hrow => by
    have hin := List.mem_of_mem_take (hcaptured.rows.mem_iff.1 hrow)
    simpa using (List.mem_filter.1 hin).2
  refine ⟨hcaptured.ascending, fun row hin => ?_, ?_, fun set' hperm => ?_⟩
  · obtain ⟨hkeeps, hself, hothers⟩ := removable_facts (hrow row hin)
    refine ⟨hkeeps, mem_holdersOf.1 hself, (holdersOf set row).toFinset.erase q.self, ?_, ?_⟩
    · rwa [Finset.card_erase_of_mem (List.mem_toFinset.2 hself),
        List.toFinset_card_of_nodup (nodup_holdersOf set row)]
    · intro host hhost
      obtain ⟨hne, hhost⟩ := Finset.mem_erase.1 hhost
      exact ⟨hne, mem_holdersOf.1 (List.mem_toFinset.1 hhost)⟩
  · have hsum := countOutcome_sum set (q := q) (population set)
    have hretained := hcaptured.retained
    have hincomplete := hcaptured.incomplete
    have habsent := hcaptured.absent
    have hlastCopy := hcaptured.lastCopy
    have htruncated := hcaptured.truncated
    have hlen := hcaptured.length_rows
    dsimp only at hretained hincomplete habsent hlastCopy htruncated hlen
    rw [← length_population, ← hsum]
    omega
  · obtain ⟨plan', rows', h'⟩ : ∃ plan' rows', sweepCapture q set' = some (plan', rows') := by
      rw [sweepCapture] at h ⊢
      split_ifs at h ⊢
      exact ⟨_, _, rfl⟩
    obtain ⟨hcaptured', hplanned'⟩ := sweepCapture_captured h'
    refine ⟨plan', rows', h', ?_, ?_, fun hfew => ?_⟩
    · rw [hcaptured'.retained, hcaptured.retained]
      exact countOutcome_perm hperm fun e _ => by rw [outcomeOf_retained_iff, outcomeOf_retained_iff]
    · rw [hcaptured'.absent, hcaptured.absent]
      refine countOutcome_perm hperm fun e _ => ?_
      have hholders := @holdersOf_perm _ _ e hperm
      rw [outcomeOf_absent_iff, outcomeOf_absent_iff, hholders.mem_iff, hholders.length_eq]
    · have hsame : ∀ e ∈ population set, outcomeOf q set' e = outcomeOf q set e := fun e he =>
        outcomeOf_perm hperm (hfew e (List.mem_filter.1 (Lib.mem_firsts.1 he)).1)
      have hcount : ∀ o, countOutcome q set' o (population set') =
          countOutcome q set o (population set) := fun o =>
        countOutcome_perm hperm fun e he => by rw [hsame e he]
      have hremovables : (removables q set' (population set')).Perm
          (removables q set (population set)) := by
        refine ((population_perm hperm).symm.filter _).trans (List.Perm.of_eq ?_)
        exact List.filter_congr fun e he => by rw [hsame e he]
      have hlen := hcaptured.length_rows
      have hlen' := hcaptured'.length_rows
      rw [hremovables.length_eq] at hlen'
      have htruncated := hcaptured'.truncated
      rw [hremovables.length_eq, ← hcaptured.truncated] at htruncated
      refine ⟨?_, fun hall => ?_⟩
      · have hretained := (hcaptured'.retained.trans (hcount _)).trans hcaptured.retained.symm
        have hincomplete := (hcaptured'.incomplete.trans (hcount _)).trans hcaptured.incomplete.symm
        have habsent := (hcaptured'.absent.trans (hcount _)).trans hcaptured.absent.symm
        have hlastCopy := (hcaptured'.lastCopy.trans (hcount _)).trans hcaptured.lastCopy.symm
        have hrows : plan'.planned = plan.planned := by
          rw [hplanned, hplanned']
          exact hlen'.trans hlen.symm
        cases plan
        cases plan'
        simp only at hretained hincomplete habsent hlastCopy hrows htruncated
        rw [hretained, hincomplete, habsent, hlastCopy, hrows, htruncated]
      · have hfits : (removables q set (population set)).length ≤ q.capacity :=
          Nat.le_of_sub_eq_zero (hcaptured.truncated.symm.trans hall)
        have hrows := hcaptured.rows
        have hrows' := hcaptured'.rows
        rw [List.take_of_length_le hfits] at hrows
        rw [List.take_of_length_le (by rwa [hremovables.length_eq])] at hrows'
        exact (Lib.sortBy_eq hcaptured'.ascending (List.Perm.refl rows')).symm.trans
          (Lib.sortBy_eq hcaptured.ascending
            (hrows'.trans (hremovables.trans hrows.symm)))

end Capture

/-! ## Where the order tells -/

/-- An entity of the same byte throughout. -/
def entityOf (b : UInt8) : Bytes := List.replicate entityLen b

/-- A host's word that it holds an entity. -/
def heldBy (host b : UInt8) : Assertion := ⟨[host], entityOf b, .holder, true⟩

/-- Host 0 sweeps with the last-copy guard off, into one row. -/
def oneRow : SweepArgs := ⟨none, [0], 0, 5, 1⟩

/-- Seventeen hosts hold entity 1. -/
def crowd : List Assertion := (List.range 17).map fun i => heldBy (UInt8.ofNat i) 1

/-- With one row for two removable entities the first to come takes it, and where one more
than sixteen hosts hold an entity, this host is found among the first sixteen and not found
behind them: the plan is another in another order. -/
theorem sweepCapture_order :
    sweepCapture oneRow [heldBy 0 1, heldBy 0 2] = some (⟨1, 0, 0, 0, 0, 1⟩, [entityOf 1]) ∧
    sweepCapture oneRow [heldBy 0 2, heldBy 0 1] = some (⟨1, 0, 0, 0, 0, 1⟩, [entityOf 2]) ∧
    crowd.reverse.Perm crowd ∧
    sweepCapture oneRow crowd = some (⟨1, 0, 0, 0, 0, 0⟩, [entityOf 1]) ∧
    sweepCapture oneRow crowd.reverse = some (⟨0, 0, 0, 0, 1, 0⟩, []) :=
  ⟨by decide, by decide, List.reverse_perm crowd, by decide, by decide⟩

/-- Hosts 0, 1 and 2 hold entity 1, host 1 holds entity 2, and host 0 entity 3. -/
def threeEntities : List Assertion := [heldBy 0 1, heldBy 1 1, heldBy 2 1, heldBy 1 2, heldBy 0 3]

/-- Host 0 plans to remove entity 1, in every order of the assertions: it has no copy of entity 2,
and the last one of entity 3. -/
theorem sweepCapture_plan_threeEntities :
    (∃ others : Finset Bytes, 2 ≤ others.card ∧ ∀ host ∈ others, host ≠ [0] ∧
      ∃ a ∈ threeEntities,
        a.live = true ∧ a.capability = .holder ∧ a.entity = entityOf 1 ∧ a.issuer = host) ∧
    ∀ set', threeEntities.Perm set' → sweepCapture { oneRow with minOthers := 2 } set' =
      some (⟨1, 0, 1, 1, 0, 0⟩, [entityOf 1]) := by
  have hcapture : sweepCapture { oneRow with minOthers := 2 } threeEntities =
      some (⟨1, 0, 1, 1, 0, 0⟩, [entityOf 1]) := by decide
  obtain ⟨-, hrows, -, hperm⟩ := sweepCapture_plan hcapture
  refine ⟨(hrows (entityOf 1) (List.mem_singleton.2 rfl)).2.2, fun set' hset' => ?_⟩
  obtain ⟨plan', rows', h', -, -, hsame⟩ := hperm set' hset'
  obtain ⟨rfl, hrows'⟩ := hsame (by decide)
  rw [h', hrows' rfl]

end Catalog
end Fuzznet
