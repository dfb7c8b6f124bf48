/-
# Planning what to fetch and what to offer

`record/sync.c`.  A peer says how far it has received each stream it follows, and the two
plans compare that with the journal: a fetch asks for what the peer is ahead by, an offer is
what this host is ahead by.  Both walk the journal, so the peer decides neither the order of a
plan nor how many requests a stream may take.

Of the positions a peer states for one stream the largest counts (`theirsFor_latest`), so a
plan is a function of what is stated at most (`theirsFor_says`), and a request that finds no
room is counted (`foldl_plan`).

The fetch and the positions are those of the exchange; the offer is here.  A call refused
answers malformed.  The pointers, which may be null, are not modelled.
-/

import Fuzznet.Lib.Latest
import Fuzznet.Record.Exchange

namespace Fuzznet
namespace Record

/-- One turn of the loop of `fzn_sync_plan_offer`. -/
def planOfferEntry (theirs : List SyncPosition) (maxPerRequest : UInt64) (outCap : ℕ)
    (plan : SyncPlan) (mine : JournalEntry) : SyncPlan :=
  match theirsFor theirs mine.key with
  | none => { plan with unknownIssuers := plan.unknownIssuers + 1 }
  | some t => addRange mine.key t.received mine.received maxPerRequest outCap plan

/-- `fzn_sync_plan_offer`; `none` is `FZN_SYNC_ERR_MALFORMED`. -/
def planOffer (j : Journal) (theirs : List SyncPosition) (maxPerRequest : UInt64) (outCap : ℕ) :
    Option SyncPlan :=
  if maxPerRequest = 0 ∨ journalUsable j = false then none
  else some (j.entries.foldl (planOfferEntry (theirs.take syncMaxPositions) maxPerRequest outCap)
    ⟨[], 0, 0, theirs.length - syncMaxPositions⟩)

/-! ## What a peer states -/

/-- The largest position stated for its stream. -/
abbrev Largest (theirs : List SyncPosition) (t : SyncPosition) : Prop :=
  Lib.Latest SyncPosition.key (fun t => t.received.toNat) {t | t ∈ theirs} t

theorem theirsFor_concat (theirs : List SyncPosition) (t : SyncPosition) (k : StreamKey) :
    theirsFor (theirs ++ [t]) k = largerPosition k (theirsFor theirs k) t := by
  rw [theirsFor, List.foldl_append]
  rfl

theorem theirsFor_none {theirs : List SyncPosition} {k : StreamKey} :
    theirsFor theirs k = none ↔ ∀ t ∈ theirs, t.key ≠ k := by
  induction theirs using List.reverseRecOn with
  | nil => exact ⟨fun _ t ht => absurd ht List.not_mem_nil, fun _ => rfl⟩
  | append_singleton theirs t ih =>
    rw [theirsFor_concat]
    unfold largerPosition
    simp only [List.forall_mem_append, List.forall_mem_singleton]
    split_ifs with hkey
    · refine ⟨fun h => ?_, fun h => absurd hkey h.2⟩
      split at h
      next => cases h
      next best hbest =>
        split_ifs at h
        rw [hbest] at h
        cases h
    · exact ih.trans ⟨fun h => ⟨h, hkey⟩, fun h => h.1⟩

/-- **The position found is the largest stated.** -/
theorem theirsFor_latest {theirs : List SyncPosition} {k : StreamKey} {t : SyncPosition}
    (h : theirsFor theirs k = some t) : t.key = k ∧ Largest theirs t := by
  induction theirs using List.reverseRecOn generalizing t with
  | nil => cases h
  | append_singleton theirs u ih =>
    rw [theirsFor_concat] at h
    unfold largerPosition at h
    have hset : {x | x ∈ theirs ++ [u]} = insert u {x | x ∈ theirs} := by
      ext x
      simp [or_comm]
    rw [Largest, hset]
    split_ifs at h with hu
    · split at h
      next hnone =>
        obtain rfl := Option.some.inj h
        refine ⟨hu, Lib.latest_insert_self fun x hx hxu => ?_⟩
        exact absurd (hxu.trans hu) (theirsFor_none.1 hnone x hx)
      next best hbest =>
        obtain ⟨hk, hlargest⟩ := ih hbest
        split_ifs at h with hlt
        · obtain rfl := Option.some.inj h
          exact ⟨hu, Lib.latest_insert_gt hlargest (hk.trans hu.symm)
            (UInt64.lt_iff_toNat_lt.1 hlt)⟩
        · obtain rfl := Option.some.inj (hbest.symm.trans h)
          refine ⟨hk, Lib.latest_insert_le hlargest fun _ => ?_⟩
          exact UInt64.le_iff_toNat_le.1 (UInt64.not_lt.1 hlt)
    · obtain ⟨hk, hlargest⟩ := ih h
      exact ⟨hk, Lib.latest_insert_le hlargest fun heq => absurd (heq.symm.trans hk) hu⟩

/-- Each position of one list is stated by the other, or a larger one for its stream. -/
def Covers (theirs theirs' : List SyncPosition) : Prop :=
  ∀ t ∈ theirs', ∃ u ∈ theirs, u.key = t.key ∧ t.received ≤ u.received

/-- **Lists that cover each other say the same** of every stream. -/
theorem theirsFor_says {theirs theirs' : List SyncPosition} (h : Covers theirs theirs')
    (h' : Covers theirs' theirs) (k : StreamKey) :
    (theirsFor theirs k).map SyncPosition.received =
      (theirsFor theirs' k).map SyncPosition.received := by
  rcases hfound : theirsFor theirs k with _ | t
  · have hnone : theirsFor theirs' k = none := by
      refine theirsFor_none.2 fun t ht hkey => ?_
      obtain ⟨u, hu, hku, -⟩ := h t ht
      exact theirsFor_none.1 hfound u hu (hku.trans hkey)
    rw [hnone]
  · obtain ⟨hkey, hlargest⟩ := theirsFor_latest hfound
    rcases hfound' : theirsFor theirs' k with _ | t'
    · obtain ⟨u, hu, hku, -⟩ := h' t hlargest.mem
      exact absurd (hku.trans hkey) (theirsFor_none.1 hfound' u hu)
    obtain ⟨hkey', hlargest'⟩ := theirsFor_latest hfound'
    obtain ⟨u, hu, hku, hle⟩ := h' t hlargest.mem
    obtain ⟨u', hu', hku', hle'⟩ := h t' hlargest'.mem
    have hu₁ := hlargest'.le u hu (hku.trans (hkey.trans hkey'.symm))
    have hu₂ := hlargest.le u' hu' (hku'.trans (hkey'.trans hkey.symm))
    rw [UInt64.le_iff_toNat_le] at hle hle'
    have heq : t.received = t'.received :=
      UInt64.toNat_inj.1 (Nat.le_antisymm (hle.trans hu₁) (hle'.trans hu₂))
    rw [Option.map_some, Option.map_some, heq]

/-! ## What a plan asks for -/

/-- The request of `add_range`, where there is room. -/
def rangeOf (k : StreamKey) (maxPerRequest behind ahead : UInt64) : Option SyncRequest :=
  if ahead ≤ behind then none
  else
    some ⟨k, behind + 1, min (ahead - behind) maxPerRequest⟩

/-- Which of two positions is behind, and which ahead. -/
abbrev Span := UInt64 → UInt64 → UInt64 × UInt64

/-- A fetch asks for what the peer is ahead by. -/
def fetchSpan : Span := fun mine theirs => (mine, theirs)

/-- An offer is what this host is ahead by. -/
def offerSpan : Span := fun mine theirs => (theirs, mine)

/-- What a plan asks for of one stream. -/
def askOf (span : Span) (look : List SyncPosition) (maxPerRequest : UInt64) (mine : JournalEntry) :
    Option SyncRequest :=
  (theirsFor look mine.key).bind fun t =>
    rangeOf mine.key maxPerRequest (span mine.received t.received).1
      (span mine.received t.received).2

/-- One more request, or one more that finds no room. -/
def Adds (outCap : ℕ) (ask : Option SyncRequest) (plan plan' : SyncPlan) : Prop :=
  match ask with
  | none => plan'.requests = plan.requests ∧ plan'.truncated = plan.truncated
  | some r =>
    if outCap ≤ plan.requests.length then
      plan'.requests = plan.requests ∧ plan'.truncated = plan.truncated + 1
    else plan'.requests = plan.requests ++ [r] ∧ plan'.truncated = plan.truncated

theorem addRange_adds (k : StreamKey) (behind ahead maxPerRequest : UInt64) (outCap : ℕ)
    (plan : SyncPlan) :
    Adds outCap (rangeOf k maxPerRequest behind ahead) plan
      (addRange k behind ahead maxPerRequest outCap plan) := by
  unfold rangeOf addRange Adds
  by_cases hahead : ahead ≤ behind
  · rw [if_pos hahead, if_pos hahead]
    exact ⟨rfl, rfl⟩
  · rw [if_neg hahead, if_neg hahead]
    by_cases hfull : outCap ≤ plan.requests.length
    · simp only [if_pos hfull, and_self]
    · simp only [if_neg hfull, and_self]

theorem planEntry_adds (look : List SyncPosition) (maxPerRequest : UInt64) (outCap : ℕ)
    (plan : SyncPlan) (mine : JournalEntry) :
    Adds outCap (askOf fetchSpan look maxPerRequest mine) plan
      (planEntry look maxPerRequest outCap plan mine) := by
  unfold askOf planEntry
  cases theirsFor look mine.key with
  | none => exact ⟨rfl, rfl⟩
  | some t => exact addRange_adds ..

theorem planOfferEntry_adds (look : List SyncPosition) (maxPerRequest : UInt64) (outCap : ℕ)
    (plan : SyncPlan) (mine : JournalEntry) :
    Adds outCap (askOf offerSpan look maxPerRequest mine) plan
      (planOfferEntry look maxPerRequest outCap plan mine) := by
  unfold askOf planOfferEntry
  cases theirsFor look mine.key with
  | none => exact ⟨rfl, rfl⟩
  | some t => exact addRange_adds ..

/-- **A plan holds the first requests, and counts the others.** -/
theorem foldl_plan {step : SyncPlan → JournalEntry → SyncPlan}
    {ask : JournalEntry → Option SyncRequest} {outCap : ℕ}
    (hstep : ∀ plan e, Adds outCap (ask e) plan (step plan e)) (entries : List JournalEntry)
    (plan : SyncPlan) (hroom : plan.requests.length ≤ outCap) :
    (entries.foldl step plan).requests =
        (plan.requests ++ entries.filterMap ask).take outCap ∧
      (entries.foldl step plan).requests.length + (entries.foldl step plan).truncated =
        plan.requests.length + plan.truncated + (entries.filterMap ask).length := by
  induction entries generalizing plan with
  | nil => exact ⟨by rw [List.filterMap_nil, List.append_nil, List.take_of_length_le hroom]; rfl, rfl⟩
  | cons e entries ih =>
    have hadds := hstep plan e
    rw [List.foldl_cons]
    unfold Adds at hadds
    split at hadds
    next hnone =>
      obtain ⟨hreq, htrunc⟩ := hadds
      rw [List.filterMap_cons_none hnone, ← hreq, ← htrunc]
      exact ih _ (hreq ▸ hroom)
    next r hsome =>
      rw [List.filterMap_cons_some hsome]
      split_ifs at hadds with hfull
      · obtain ⟨hreq, htrunc⟩ := hadds
        obtain ⟨hreqs, hcount⟩ := ih (step plan e) (hreq ▸ hroom)
        rw [hreq, List.take_append_of_le_length hfull] at hreqs
        rw [hreq, htrunc] at hcount
        rw [List.take_append_of_le_length hfull, List.length_cons]
        exact ⟨hreqs, by omega⟩
      · obtain ⟨hreq, htrunc⟩ := hadds
        have hlen : (step plan e).requests.length = plan.requests.length + 1 := by
          rw [hreq, List.length_append, List.length_singleton]
        obtain ⟨hreqs, hcount⟩ := ih (step plan e) (by omega)
        rw [hreq, List.append_assoc, List.singleton_append] at hreqs
        rw [hlen, htrunc] at hcount
        exact ⟨hreqs, by rw [List.length_cons]; omega⟩

/-- The first request of a stream is what the two positions are apart, as far as one request
goes, and nothing wraps. -/
theorem rangeOf_eq_some {k : StreamKey} {maxPerRequest behind ahead : UInt64} {r : SyncRequest}
    (hmax : maxPerRequest ≠ 0) (h : rangeOf k maxPerRequest behind ahead = some r) :
    r.key = k ∧ r.fromSeq.toNat = behind.toNat + 1 ∧ 1 ≤ r.count.toNat ∧ r.count ≤ maxPerRequest ∧
      r.fromSeq.toNat + r.count.toNat ≤ ahead.toNat + 1 := by
  unfold rangeOf at h
  by_cases hahead : ahead ≤ behind
  · rw [if_pos hahead] at h
    cases h
  rw [if_neg hahead] at h
  obtain rfl := Option.some.inj h
  have hlt : behind.toNat < ahead.toNat := UInt64.lt_iff_toNat_lt.1 (UInt64.not_le.1 hahead)
  have hbound := ahead.toNat_lt
  have hstart : (behind + 1).toNat = behind.toNat + 1 := by
    rw [UInt64.toNat_add, UInt64.toNat_one, Nat.mod_eq_of_lt (by omega)]
  have hlag : (ahead - behind).toNat = ahead.toNat - behind.toNat :=
    UInt64.toNat_sub_of_le _ _ (UInt64.le_iff_toNat_le.2 hlt.le)
  have hpos : maxPerRequest.toNat ≠ 0 := fun hzero => hmax (UInt64.toNat_inj.1 hzero)
  have hcount : (min (ahead - behind) maxPerRequest).toNat =
      min (ahead - behind).toNat maxPerRequest.toNat := by
    by_cases hle : ahead - behind ≤ maxPerRequest
    · rw [show min (ahead - behind) maxPerRequest = ahead - behind from if_pos hle,
        Nat.min_eq_left (UInt64.le_iff_toNat_le.1 hle)]
    · rw [show min (ahead - behind) maxPerRequest = maxPerRequest from if_neg hle,
        Nat.min_eq_right (UInt64.lt_iff_toNat_lt.1 (UInt64.not_le.1 hle)).le]
  refine ⟨rfl, hstart, ?_, UInt64.le_iff_toNat_le.2 ?_, ?_⟩
  · show 1 ≤ (min (ahead - behind) maxPerRequest).toNat
    rw [hcount, hlag]
    omega
  · show (min (ahead - behind) maxPerRequest).toNat ≤ _
    rw [hcount]
    exact Nat.min_le_right _ _
  · show (behind + 1).toNat + (min (ahead - behind) maxPerRequest).toNat ≤ _
    rw [hstart, hcount, hlag]
    omega

theorem rangeOf_isSome {k : StreamKey} {maxPerRequest behind ahead : UInt64} :
    (rangeOf k maxPerRequest behind ahead).isSome = true ↔ behind < ahead := by
  unfold rangeOf
  by_cases hahead : ahead ≤ behind
  · rw [if_pos hahead]
    exact ⟨fun h => (by cases h), fun h => absurd hahead (UInt64.not_le.2 h)⟩
  · rw [if_neg hahead]
    exact ⟨fun _ => UInt64.not_le.1 hahead, fun _ => rfl⟩

/-- A stream of the journal lags: the largest position stated for it and its own are apart. -/
def Lags (span : Span) (theirs : List SyncPosition) (mine : JournalEntry) : Prop :=
  ∃ t ∈ theirs, t.key = mine.key ∧ (∀ u ∈ theirs, u.key = t.key → u.received ≤ t.received) ∧
    (span mine.received t.received).1 < (span mine.received t.received).2

instance (span : Span) (theirs : List SyncPosition) (mine : JournalEntry) :
    Decidable (Lags span theirs mine) :=
  inferInstanceAs (Decidable (∃ t ∈ theirs, _))

theorem Largest.received_le {theirs : List SyncPosition} {t u : SyncPosition}
    (h : Largest theirs t) (hu : u ∈ theirs) (hkey : u.key = t.key) : u.received ≤ t.received :=
  UInt64.le_iff_toNat_le.2 (h.le u hu hkey)

theorem askOf_isSome (span : Span) (theirs : List SyncPosition) (maxPerRequest : UInt64)
    (mine : JournalEntry) :
    (askOf span theirs maxPerRequest mine).isSome = decide (Lags span theirs mine) := by
  rw [askOf, Bool.eq_iff_iff, decide_eq_true_iff]
  rcases hfound : theirsFor theirs mine.key with _ | t
  · refine ⟨fun h => (by cases h), fun ⟨t, ht, hkey, _⟩ => ?_⟩
    exact absurd hkey (theirsFor_none.1 hfound t ht)
  · obtain ⟨hkey, hlargest⟩ := theirsFor_latest hfound
    rw [Option.bind_some, rangeOf_isSome]
    refine ⟨fun hlt => ⟨t, hlargest.mem, hkey, fun u hu hku => hlargest.received_le hu hku, hlt⟩, ?_⟩
    rintro ⟨u, hu, hku, hbest, hlt⟩
    have hle := hlargest.received_le hu (hku.trans hkey.symm)
    have hge := hbest t hlargest.mem (hkey.trans hku.symm)
    rwa [UInt64.le_antisymm hge hle]

/-- What a plan is: at most one request a stream, in the order of the journal, each what the
journal and the largest position stated are apart; and the rest counted. -/
structure PlanAsks (span : Span) (j : Journal) (theirs : List SyncPosition)
    (maxPerRequest : UInt64) (outCap : ℕ) (plan : SyncPlan) : Prop where
  order : (plan.requests.map SyncRequest.key).Sublist (j.entries.map JournalEntry.key)
  room : plan.requests.length ≤ outCap
  range : ∀ r ∈ plan.requests, ∃ mine ∈ j.entries, ∃ t ∈ theirs,
    mine.key = r.key ∧ t.key = r.key ∧ (∀ u ∈ theirs, u.key = r.key → u.received ≤ t.received) ∧
    r.fromSeq.toNat = (span mine.received t.received).1.toNat + 1 ∧
    1 ≤ r.count.toNat ∧ r.count ≤ maxPerRequest ∧
    r.fromSeq.toNat + r.count.toNat ≤ (span mine.received t.received).2.toNat + 1
  total : plan.requests.length + plan.truncated =
    j.entries.countP fun mine => decide (Lags span theirs mine)

variable {span : Span} {theirs : List SyncPosition} {maxPerRequest : UInt64} {outCap : ℕ}

theorem askOf_eq_some {mine : JournalEntry} {r : SyncRequest} (hmax : maxPerRequest ≠ 0)
    (h : askOf span theirs maxPerRequest mine = some r) :
    mine.key = r.key ∧ ∃ t ∈ theirs, t.key = r.key ∧
      (∀ u ∈ theirs, u.key = r.key → u.received ≤ t.received) ∧
      r.fromSeq.toNat = (span mine.received t.received).1.toNat + 1 ∧
      1 ≤ r.count.toNat ∧ r.count ≤ maxPerRequest ∧
      r.fromSeq.toNat + r.count.toNat ≤ (span mine.received t.received).2.toNat + 1 := by
  obtain ⟨t, hfound, hrange⟩ := Option.bind_eq_some_iff.1 h
  obtain ⟨hkey, hlargest⟩ := theirsFor_latest hfound
  obtain ⟨hrkey, hrest⟩ := rangeOf_eq_some hmax hrange
  refine ⟨hrkey.symm, t, hlargest.mem, hkey.trans hrkey.symm, fun u hu hku => ?_, hrest⟩
  exact hlargest.received_le hu (hku.trans (hrkey.trans hkey.symm))

theorem askOf_sublist (hmax : maxPerRequest ≠ 0) (entries : List JournalEntry) :
    ((entries.filterMap (askOf span theirs maxPerRequest)).map SyncRequest.key).Sublist
      (entries.map JournalEntry.key) := by
  induction entries with
  | nil => exact .slnil
  | cons e entries ih =>
    rcases hask : askOf span theirs maxPerRequest e with _ | r
    · rw [List.filterMap_cons_none hask]
      exact ih.cons _
    · rw [List.filterMap_cons_some hask, List.map_cons, List.map_cons,
        (askOf_eq_some hmax hask).1]
      exact ih.cons_cons _

/-- **Walking the journal makes a plan.** -/
theorem planAsks_foldl {j : Journal} {step : SyncPlan → JournalEntry → SyncPlan}
    (hmax : maxPerRequest ≠ 0)
    (hstep : ∀ plan e, Adds outCap (askOf span theirs maxPerRequest e) plan (step plan e))
    {plan : SyncPlan} (hnone : plan.requests = []) (hzero : plan.truncated = 0) :
    PlanAsks span j theirs maxPerRequest outCap (j.entries.foldl step plan) := by
  obtain ⟨hreqs, hcount⟩ := foldl_plan hstep j.entries plan (by rw [hnone]; exact Nat.zero_le _)
  rw [hnone, List.nil_append] at hreqs
  rw [hnone, hzero, List.length_nil, Nat.zero_add] at hcount
  refine ⟨?_, ?_, fun r hr => ?_, ?_⟩
  · rw [hreqs]
    exact ((List.take_sublist outCap _).map _).trans (askOf_sublist hmax j.entries)
  · rw [hreqs]
    exact List.length_take_le _ _
  · rw [hreqs] at hr
    obtain ⟨mine, hmine, hask⟩ := List.mem_filterMap.1 (List.mem_of_mem_take hr)
    obtain ⟨hkey, t, ht, hrest⟩ := askOf_eq_some hmax hask
    exact ⟨mine, hmine, t, ht, hkey, hrest⟩
  · rw [hcount, List.length_filterMap_eq_countP]
    exact List.countP_congr fun mine _ => by rw [askOf_isSome]

theorem askOf_congr {theirs' : List SyncPosition} (h : Covers theirs theirs')
    (h' : Covers theirs' theirs) (mine : JournalEntry) :
    askOf span theirs' maxPerRequest mine = askOf span theirs maxPerRequest mine := by
  have hbind : ∀ look, askOf span look maxPerRequest mine =
      ((theirsFor look mine.key).map SyncPosition.received).bind fun received =>
        rangeOf mine.key maxPerRequest (span mine.received received).1
          (span mine.received received).2 := by
    intro look
    rw [askOf, Option.bind_map]
    rfl
  rw [hbind, hbind, theirsFor_says h h']

/-- Two answers to what a peer states, of which only what it states at most may count. -/
structure Unsteered (span : Span) (j : Journal) (theirs : List SyncPosition)
    (maxPerRequest : UInt64) (outCap : ℕ) (answer answer' : Option SyncPlan) : Prop where
  answered : answer.isSome = true ↔ maxPerRequest ≠ 0 ∧ journalUsable j = true
  asks : ∀ plan ∈ answer, PlanAsks span j theirs maxPerRequest outCap plan
  once : ∀ plan ∈ answer, (plan.requests.map SyncRequest.key).Nodup
  requests : answer'.map SyncPlan.requests = answer.map SyncPlan.requests
  truncated : answer'.map SyncPlan.truncated = answer.map SyncPlan.truncated

/-- A refused call, or a walk of the journal, in either of two plans. -/
theorem unsteered_of_walk {j : Journal} (hone : (j.entries.map JournalEntry.key).Nodup)
    {theirs' : List SyncPosition} (h : Covers theirs theirs') (h' : Covers theirs' theirs)
    {step : List SyncPosition → SyncPlan → JournalEntry → SyncPlan}
    (hstep : ∀ look plan e,
      Adds outCap (askOf span look maxPerRequest e) plan (step look plan e))
    {plan plan' : SyncPlan} (hplan : plan.requests = [] ∧ plan.truncated = 0)
    (hplan' : plan'.requests = [] ∧ plan'.truncated = 0) :
    Unsteered span j theirs maxPerRequest outCap
      (if maxPerRequest = 0 ∨ journalUsable j = false then none
        else some (j.entries.foldl (step theirs) plan))
      (if maxPerRequest = 0 ∨ journalUsable j = false then none
        else some (j.entries.foldl (step theirs') plan')) := by
  by_cases hbad : maxPerRequest = 0 ∨ journalUsable j = false
  · rw [if_pos hbad, if_pos hbad]
    refine ⟨⟨fun hok => (by cases hok), fun hgood => ?_⟩, fun _ hp => (by cases hp),
      fun _ hp => (by cases hp), rfl, rfl⟩
    rcases hbad with hzero | hunusable
    · exact absurd hzero hgood.1
    · rw [hgood.2] at hunusable
      cases hunusable
  rw [if_neg hbad, if_neg hbad]
  have hgood : maxPerRequest ≠ 0 ∧ journalUsable j = true :=
    ⟨fun h => hbad (Or.inl h), Bool.eq_true_of_not_eq_false fun h => hbad (Or.inr h)⟩
  have hasks := planAsks_foldl (j := j) hgood.1 (hstep theirs) hplan.1 hplan.2
  obtain ⟨hreqs, hcount⟩ := foldl_plan (hstep theirs) j.entries plan
    (by rw [hplan.1]; exact Nat.zero_le _)
  obtain ⟨hreqs', hcount'⟩ := foldl_plan (hstep theirs') j.entries plan'
    (by rw [hplan'.1]; exact Nat.zero_le _)
  have hask : askOf span theirs' maxPerRequest = askOf span theirs maxPerRequest :=
    funext fun mine => askOf_congr h h' mine
  have hsame : (j.entries.foldl (step theirs') plan').requests =
      (j.entries.foldl (step theirs) plan).requests := by
    rw [hreqs, hreqs', hask, hplan.1, hplan'.1]
  rw [hask, hsame, hplan'.1, hplan'.2] at hcount'
  rw [hplan.1, hplan.2] at hcount
  refine ⟨⟨fun _ => hgood, fun _ => rfl⟩, fun p hp => ?_, fun p hp => ?_, congrArg some hsame,
    congrArg some (Nat.add_left_cancel (hcount'.trans hcount.symm))⟩
  · exact Option.mem_some_iff.1 hp ▸ hasks
  · exact Option.mem_some_iff.1 hp ▸ hasks.order.nodup hone

/-- **A peer does not steer a plan by ordering what it states**, nor by stating more of a
stream at no larger a number: the answers are the same, and each asks, one request a stream and
in the order of the journal, for what the journal and the largest position stated are apart. -/
theorem sync_plans_unsteered (j : Journal) (hone : (j.entries.map JournalEntry.key).Nodup)
    (theirs theirs' extra : List SyncPosition) (hlen : theirs.length ≤ syncMaxPositions)
    (hlen' : theirs'.length ≤ syncMaxPositions) (hperm : theirs'.Perm (theirs ++ extra))
    (hextra : ∀ t ∈ extra, ∃ u ∈ theirs, u.key = t.key ∧ t.received ≤ u.received)
    (maxPerRequest : UInt64) (outCap : ℕ) :
    Unsteered fetchSpan j theirs maxPerRequest outCap
        (planFetch j theirs maxPerRequest outCap) (planFetch j theirs' maxPerRequest outCap) ∧
      Unsteered offerSpan j theirs maxPerRequest outCap
        (planOffer j theirs maxPerRequest outCap) (planOffer j theirs' maxPerRequest outCap) := by
  have hcovers : Covers theirs theirs' := fun t ht =>
    (List.mem_append.1 (hperm.mem_iff.1 ht)).elim (fun h => ⟨t, h, rfl, UInt64.le_refl _⟩) (hextra t)
  have hcovers' : Covers theirs' theirs := fun t ht =>
    ⟨t, hperm.mem_iff.2 (List.mem_append_left extra ht), rfl, UInt64.le_refl _⟩
  refine ⟨?_, ?_⟩
  · unfold planFetch
    rw [List.take_of_length_le hlen, List.take_of_length_le hlen']
    exact unsteered_of_walk hone hcovers hcovers'
      (fun look plan e => planEntry_adds look maxPerRequest outCap plan e) ⟨rfl, rfl⟩ ⟨rfl, rfl⟩
  · unfold planOffer
    rw [List.take_of_length_le hlen, List.take_of_length_le hlen']
    exact unsteered_of_walk hone hcovers hcovers'
      (fun look plan e => planOfferEntry_adds look maxPerRequest outCap plan e) ⟨rfl, rfl⟩
      ⟨rfl, rfl⟩

/-- A journal of one stream, received up to 3. -/
def upToThree : Journal := ⟨[⟨⟨5, 1⟩, 3, 3, 0, true, false⟩], 4⟩

example : (planFetch upToThree [⟨⟨5, 1⟩, 9⟩, ⟨⟨5, 1⟩, 7⟩] 4 8) =
    some ⟨[⟨⟨5, 1⟩, 4, 4⟩], 0, 0, 0⟩ := by decide

/-- A stream the peer states twice, the larger number first or last. -/
theorem sync_plans_unsteered_twice :
    Unsteered fetchSpan upToThree [⟨⟨5, 1⟩, 9⟩] 4 8 (planFetch upToThree [⟨⟨5, 1⟩, 9⟩] 4 8)
        (planFetch upToThree [⟨⟨5, 1⟩, 7⟩, ⟨⟨5, 1⟩, 9⟩] 4 8) ∧
      Unsteered offerSpan upToThree [⟨⟨5, 1⟩, 9⟩] 4 8 (planOffer upToThree [⟨⟨5, 1⟩, 9⟩] 4 8)
        (planOffer upToThree [⟨⟨5, 1⟩, 7⟩, ⟨⟨5, 1⟩, 9⟩] 4 8) :=
  sync_plans_unsteered upToThree (by decide) _ _ [⟨⟨5, 1⟩, 7⟩] (by decide) (by decide)
    (List.Perm.swap ..) (by decide) 4 8

end Record
end Fuzznet
