/-
# Command expiry and the replay window

`frame/freshness.c`.  A frame that states an expiry is admitted once: its nonce is
remembered until that expiry, and forgotten by the sweep at the first instant
`fzn_freshness_check` would refuse the frame anyway.  A receiver remembers no
nonce further ahead than its horizon `now + max_ahead`, which saturates at the top
of the clock (`horizonOf`).

`replayAdmit` is the cascade of `fzn_replay_admit` and `AdmitCase` says what it can
do to the window: nothing, a sweep, or a sweep and one entry at the end.  Everything
about runs is derived from that: the entries of a window are the admissions not yet
expired, so an admission is found by every later call until its expiry
(`Remembered`), and every entry goes back to the call that wrote it
(`replayRun_entry_admitted`).
-/

import Fuzznet.Lib.Runs
import Fuzznet.Lib.Slots
import Fuzznet.Wire.Bytes

namespace Fuzznet
namespace Frame

open Wire

/-- `FZN_NONCE_LEN` is 24. -/
abbrev Nonce := BitVec 192

/-- `fzn_fresh_err_t`. -/
inductive FreshErr
  | ok
  | malformed
  | expired
  | noExpiry
  | replay
  | windowFull
  | horizon
  deriving DecidableEq, Repr

/-- `fzn_expiry_rule_t`: what an absent expiry means. -/
inductive ExpiryRule
  | required
  | optional
  deriving DecidableEq, Repr

/-- The last tick of the clock, `UINT64_MAX`. -/
def clockMax : UInt64 := 0xffffffffffffffff

/-- `horizon_of`, which saturates. -/
def horizonOf (now maxAhead : UInt64) : UInt64 :=
  if maxAhead > clockMax - now then clockMax else now + maxAhead

/-- `fzn_freshness_check`. -/
def freshnessCheck (expiresAt : UInt64) (kind : ExpiryRule) (now maxAhead : UInt64) : FreshErr :=
  if maxAhead = 0 then .malformed
  else if expiresAt = 0 then
    match kind with
    | .optional => .ok
    | .required => .noExpiry
  else if expiresAt ≤ now then .expired
  else if expiresAt > horizonOf now maxAhead then .horizon
  else .ok

/-- `fzn_replay_entry_t`. -/
structure ReplayEntry where
  nonce : Nonce
  expiresAt : UInt64
  deriving DecidableEq, Repr

/-- `fzn_replay_window_t`: the entries in use, the room the caller gave and the
horizon.  A window built by hand may claim more entries than it has room for. -/
structure ReplayWindow where
  entries : List ReplayEntry
  capacity : ℕ
  maxAhead : UInt64
  deriving DecidableEq, Repr

/-- `fzn_replay_init` over an array of `capacity` entries. -/
def replayInit (capacity : ℕ) (maxAhead : UInt64) : Except FreshErr ReplayWindow :=
  if capacity = 0 ∨ maxAhead = 0 then .error .malformed
  else .ok ⟨[], capacity, maxAhead⟩

/-- `fzn_replay_expire`: compact in place what outlives `now`. -/
def replayExpire (w : ReplayWindow) (now : UInt64) : ℕ × ReplayWindow :=
  if w.capacity < w.entries.length then (0, w)
  else
    (w.entries.length - (Lib.compactLoop (fun e => decide (e.expiresAt > now)) w.entries).2,
      { w with entries := Lib.compact (fun e => decide (e.expiresAt > now)) w.entries })

/-- `fzn_replay_admit` behind the sweep and the freshness check. -/
def recordNonce (w : ReplayWindow) (nonce : Nonce) (expiresAt : UInt64) :
    FreshErr × ReplayWindow :=
  if expiresAt = 0 then (.ok, w)
  else if w.entries.any (fun e => e.nonce = nonce) then (.replay, w)
  else if w.entries.length ≥ w.capacity then (.windowFull, w)
  else (.ok, { w with entries := w.entries ++ [⟨nonce, expiresAt⟩] })

/-- `fzn_replay_admit`: sweep, then freshness, then the window. -/
def replayAdmit (w : ReplayWindow) (nonce : Nonce) (expiresAt : UInt64) (kind : ExpiryRule)
    (now : UInt64) : FreshErr × ReplayWindow :=
  if w.capacity < w.entries.length then (.malformed, w)
  else
    match freshnessCheck expiresAt kind now w.maxAhead with
    | .ok => recordNonce (replayExpire w now).2 nonce expiresAt
    | err => (err, (replayExpire w now).2)

/-! ## What one call does -/

/-- The window behind the sweep at `now`. -/
def swept (w : ReplayWindow) (now : UInt64) : ReplayWindow := (replayExpire w now).2

@[simp] theorem swept_capacity (w : ReplayWindow) (now : UInt64) :
    (swept w now).capacity = w.capacity := by
  unfold swept replayExpire
  split <;> rfl

@[simp] theorem swept_maxAhead (w : ReplayWindow) (now : UInt64) :
    (swept w now).maxAhead = w.maxAhead := by
  unfold swept replayExpire
  split <;> rfl

/-- **A sweep keeps exactly the entries that outlive `now`.** -/
theorem swept_entries {w : ReplayWindow} (hw : w.entries.length ≤ w.capacity) (now : UInt64) :
    (swept w now).entries = w.entries.filter fun e => now < e.expiresAt := by
  unfold swept replayExpire
  rw [if_neg (by omega)]
  exact Lib.compact_eq_filter w.entries

theorem mem_swept {w : ReplayWindow} (hw : w.entries.length ≤ w.capacity) {now : UInt64}
    {x : ReplayEntry} : x ∈ (swept w now).entries ↔ x ∈ w.entries ∧ now < x.expiresAt := by
  rw [swept_entries hw, List.mem_filter, decide_eq_true_eq]

theorem toNat_clockMax : clockMax.toNat = 18446744073709551615 := by
  decide

/-- **The horizon never lies beyond `now + max_ahead`**, saturated or not. -/
theorem toNat_horizonOf_le (now maxAhead : UInt64) :
    (horizonOf now maxAhead).toNat ≤ now.toNat + maxAhead.toNat := by
  have hnow := now.toNat_lt
  have hsub : (clockMax - now).toNat = clockMax.toNat - now.toNat :=
    UInt64.toNat_sub_of_le _ _ (UInt64.le_iff_toNat_le.2 (by rw [toNat_clockMax]; omega))
  unfold horizonOf
  split
  case isTrue h =>
    have h := UInt64.lt_iff_toNat_lt.1 h
    rw [hsub] at h
    rw [toNat_clockMax] at h ⊢
    omega
  case isFalse h =>
    rw [UInt64.toNat_add]
    exact Nat.mod_le _ _

/-- A frame found fresh that states an expiry states one within the horizon. -/
theorem freshnessCheck_ok {e now maxAhead : UInt64} {kind : ExpiryRule}
    (h : freshnessCheck e kind now maxAhead = .ok) (he : e ≠ 0) :
    now < e ∧ e.toNat ≤ now.toNat + maxAhead.toNat := by
  unfold freshnessCheck at h
  by_cases hm : maxAhead = 0
  · simp [hm] at h
  rw [if_neg hm, if_neg he] at h
  by_cases hpast : e ≤ now
  · simp [hpast] at h
  by_cases hfar : e > horizonOf now maxAhead
  · simp [hpast, hfar] at h
  refine ⟨UInt64.not_le.1 hpast, ?_⟩
  exact Nat.le_trans (UInt64.le_iff_toNat_le.1 (UInt64.not_lt.1 hfar))
    (toNat_horizonOf_le now maxAhead)

/-- What a call of `fzn_replay_admit` can answer, and the window it leaves. -/
inductive AdmitCase (w : ReplayWindow) (nonce : Nonce) (e : UInt64) (now : UInt64) :
    FreshErr × ReplayWindow → Prop
  | unsound (hw : w.capacity < w.entries.length) : AdmitCase w nonce e now (.malformed, w)
  | refused (hw : w.entries.length ≤ w.capacity) (err : FreshErr) (herr : err ≠ .ok) :
      AdmitCase w nonce e now (err, swept w now)
  | unrecorded (hw : w.entries.length ≤ w.capacity) (he : e = 0) :
      AdmitCase w nonce e now (.ok, swept w now)
  | recorded (hw : w.entries.length ≤ w.capacity) (he : e ≠ 0) (hfresh : now < e)
      (hahead : e.toNat ≤ now.toNat + w.maxAhead.toNat)
      (hnew : ∀ x ∈ (swept w now).entries, x.nonce ≠ nonce)
      (hroom : (swept w now).entries.length < w.capacity) :
      AdmitCase w nonce e now
        (.ok, { swept w now with entries := (swept w now).entries ++ [⟨nonce, e⟩] })

theorem replayAdmit_cases (w : ReplayWindow) (nonce : Nonce) (e : UInt64) (kind : ExpiryRule)
    (now : UInt64) : AdmitCase w nonce e now (replayAdmit w nonce e kind now) := by
  unfold replayAdmit
  by_cases hw : w.capacity < w.entries.length
  · rw [if_pos hw]
    exact .unsound hw
  rw [if_neg hw]
  have hw' : w.entries.length ≤ w.capacity := by omega
  cases hf : freshnessCheck e kind now w.maxAhead with
  | ok =>
    show AdmitCase w nonce e now (recordNonce (swept w now) nonce e)
    unfold recordNonce
    by_cases he : e = 0
    · rw [if_pos he]
      exact .unrecorded hw' he
    rw [if_neg he]
    by_cases hheld : ((swept w now).entries.any fun x => x.nonce = nonce) = true
    · rw [if_pos hheld]
      exact .refused hw' _ (by simp)
    rw [if_neg hheld]
    by_cases hfull : (swept w now).entries.length ≥ (swept w now).capacity
    · rw [if_pos hfull]
      exact .refused hw' _ (by simp)
    rw [if_neg hfull]
    obtain ⟨hfresh, hahead⟩ := freshnessCheck_ok hf he
    refine .recorded hw' he hfresh hahead ?_ (by rw [swept_capacity] at hfull; omega)
    simpa using hheld
  | _ => exact .refused hw' _ (by simp)

/-! ## Runs -/

/-- One call on a window: `fzn_replay_admit` or `fzn_replay_expire`. -/
inductive ReplayCall
  | replayAdmit (nonce : Nonce) (expiresAt : UInt64) (kind : ExpiryRule) (now : UInt64)
  | replayExpire (now : UInt64)
  deriving DecidableEq, Repr

/-- The clock a call is made at. -/
def ReplayCall.now : ReplayCall → UInt64
  | .replayAdmit _ _ _ now => now
  | .replayExpire now => now

/-- The window behind a call. -/
def replayStep (w : ReplayWindow) : ReplayCall → ReplayWindow
  | .replayAdmit nonce e kind now => (replayAdmit w nonce e kind now).2
  | .replayExpire now => (replayExpire w now).2

/-- The window behind a run of calls. -/
def replayRun (w : ReplayWindow) (calls : List ReplayCall) : ReplayWindow :=
  calls.foldl replayStep w

/-- Call `i` of the run is an admit of this nonce and expiry at `now`, answered
`FZN_FRESH_OK`. -/
def AdmittedAt (w : ReplayWindow) (calls : List ReplayCall) (i : ℕ) (nonce : Nonce)
    (e now : UInt64) : Prop :=
  ∃ kind, calls[i]? = some (.replayAdmit nonce e kind now) ∧
    (replayAdmit (replayRun w (calls.take i)) nonce e kind now).1 = .ok

/-- What a window made by `fzn_replay_init` keeps: room for what it holds, and no
nonce twice. -/
structure WindowSound (w : ReplayWindow) : Prop where
  room : w.entries.length ≤ w.capacity
  distinct : (w.entries.map (·.nonce)).Nodup

variable {w : ReplayWindow} {calls : List ReplayCall}

theorem windowSound_swept (h : WindowSound w) (now : UInt64) : WindowSound (swept w now) := by
  refine ⟨?_, ?_⟩
  · rw [swept_entries h.room, swept_capacity]
    exact Nat.le_trans (List.length_filter_le _ _) h.room
  · rw [swept_entries h.room]
    exact h.distinct.sublist (List.filter_sublist.map _)

theorem windowSound_replayAdmit (h : WindowSound w) (nonce : Nonce) (e : UInt64)
    (kind : ExpiryRule) (now : UInt64) : WindowSound (replayAdmit w nonce e kind now).2 := by
  have hcase := replayAdmit_cases w nonce e kind now
  generalize replayAdmit w nonce e kind now = r at hcase ⊢
  cases hcase with
  | unsound hw => exact h
  | refused hw err herr => exact windowSound_swept h now
  | unrecorded hw he => exact windowSound_swept h now
  | recorded hw he hfresh hahead hnew hroom =>
    refine ⟨?_, ?_⟩
    · show ((swept w now).entries ++ [_]).length ≤ (swept w now).capacity
      rw [List.length_append, List.length_singleton, swept_capacity]
      omega
    · show (((swept w now).entries ++ [ReplayEntry.mk nonce e]).map ReplayEntry.nonce).Nodup
      rw [List.map_append, List.nodup_append]
      refine ⟨(windowSound_swept h now).distinct, by simp, fun a ha b hb => ?_⟩
      obtain ⟨x, hx, rfl⟩ := List.mem_map.1 ha
      rw [List.mem_singleton.1 hb]
      exact hnew x hx

theorem windowSound_replayStep (h : WindowSound w) (c : ReplayCall) :
    WindowSound (replayStep w c) := by
  cases c with
  | replayAdmit nonce e kind now => exact windowSound_replayAdmit h nonce e kind now
  | replayExpire now => exact windowSound_swept h now

theorem windowSound_replayRun (h : WindowSound w) (calls : List ReplayCall) :
    WindowSound (replayRun w calls) :=
  Lib.foldl_induction (fun _ c _ hs => windowSound_replayStep hs c) h

theorem replayInit_ok {capacity : ℕ} {maxAhead : UInt64}
    (h : replayInit capacity maxAhead = .ok w) : w = ⟨[], capacity, maxAhead⟩ := by
  unfold replayInit at h
  split at h
  · cases h
  · exact (Except.ok.inj h).symm

variable {nonce : Nonce} {x : ReplayEntry} {kind : ExpiryRule} {c : ReplayCall}

/-- **No call before its expiry forgets an entry.** -/
theorem mem_replayStep (h : WindowSound w) (hx : x ∈ w.entries) (hc : c.now < x.expiresAt) :
    x ∈ (replayStep w c).entries := by
  have hsw : x ∈ (swept w c.now).entries := (mem_swept h.room).2 ⟨hx, hc⟩
  cases c with
  | replayExpire now => exact hsw
  | replayAdmit nonce e kind now =>
    show x ∈ (replayAdmit w nonce e kind now).2.entries
    have hcase := replayAdmit_cases w nonce e kind now
    generalize replayAdmit w nonce e kind now = r at hcase ⊢
    cases hcase with
    | unsound hw => exact hx
    | refused hw err herr => exact hsw
    | unrecorded hw he => exact hsw
    | recorded hw he hfresh hahead hnew hroom => exact List.mem_append_left _ hsw

theorem mem_replayRun (h : WindowSound w) (hx : x ∈ w.entries)
    (hc : ∀ c ∈ calls, c.now < x.expiresAt) : x ∈ (replayRun w calls).entries := by
  have hrun : WindowSound (replayRun w calls) ∧ x ∈ (replayRun w calls).entries := by
    refine Lib.foldl_induction (P := fun v => WindowSound v ∧ x ∈ v.entries)
      (fun pre c hle hs => ?_) ⟨h, hx⟩
    have hmem : c ∈ calls := hle.subset (by simp)
    exact ⟨windowSound_replayStep hs.1 c, mem_replayStep hs.1 hs.2 (hc c hmem)⟩
  exact hrun.2

/-- An admission that states an expiry is in the window behind it. -/
theorem mem_of_replayAdmit_ok {e now : UInt64} (hok : (replayAdmit w nonce e kind now).1 = .ok)
    (he : e ≠ 0) : ⟨nonce, e⟩ ∈ (replayAdmit w nonce e kind now).2.entries := by
  revert hok
  have hcase := replayAdmit_cases w nonce e kind now
  generalize replayAdmit w nonce e kind now = r at hcase ⊢
  cases hcase with
  | unsound hw => exact fun h => absurd h (by simp)
  | refused hw err herr => exact fun h => absurd h herr
  | unrecorded hw hz => exact absurd hz he
  | recorded hw he hfresh hahead hnew hroom => exact fun _ => List.mem_append_right _ (by simp)

/-- **A nonce held by an entry that is not expired is refused.** -/
theorem replayAdmit_ne_ok_of_mem {e now : UInt64} (he : e ≠ 0) (hx : x ∈ w.entries)
    (hn : x.nonce = nonce) (hlive : now < x.expiresAt) :
    (replayAdmit w nonce e kind now).1 ≠ .ok := by
  have hcase := replayAdmit_cases w nonce e kind now
  generalize replayAdmit w nonce e kind now = r at hcase ⊢
  cases hcase with
  | unsound hw => simp
  | refused hw err herr => exact herr
  | unrecorded hw hz => exact absurd hz he
  | recorded hw he hfresh hahead hnew hroom =>
    exact absurd hn (hnew x ((mem_swept hw).2 ⟨hx, hlive⟩))

/-- What one more call of a run does. -/
theorem replayRun_take_succ {i : ℕ} (hc : calls[i]? = some c) :
    replayRun w (calls.take (i + 1)) = replayStep (replayRun w (calls.take i)) c := by
  rw [List.take_add_one, hc]
  exact List.foldl_append

/-- With a clock that does not run back, the calls between two positions are made no
later than the second. -/
theorem now_le_of_mem_between (hclock : calls.Pairwise fun a b => a.now ≤ b.now) {i j : ℕ}
    {c d : ReplayCall} (hc : calls[j]? = some c) (hd : d ∈ (calls.take j).drop i) :
    d.now ≤ c.now := by
  obtain ⟨hj, rfl⟩ := List.getElem?_eq_some_iff.1 hc
  have hsplit := List.take_append_drop j calls
  rw [← hsplit, List.pairwise_append] at hclock
  refine hclock.2.2 d (List.mem_of_mem_drop hd) _ ?_
  rw [List.drop_eq_getElem_cons hj]
  exact List.mem_cons_self

/-- **An admission is remembered until its expiry.** -/
theorem AdmittedAt.remembered (hw : WindowSound w)
    (hclock : calls.Pairwise fun a b => a.now ≤ b.now) {i j : ℕ} (hij : i < j) {e t : UInt64}
    (he : e ≠ 0) (hadm : AdmittedAt w calls i nonce e t) (hc : calls[j]? = some c)
    (hlive : c.now < e) : ⟨nonce, e⟩ ∈ (replayRun w (calls.take j)).entries := by
  obtain ⟨kind, hi, hok⟩ := hadm
  have hmem : ⟨nonce, e⟩ ∈ (replayRun w (calls.take (i + 1))).entries := by
    rw [replayRun_take_succ hi]
    exact mem_of_replayAdmit_ok hok he
  have hsplit : calls.take j = calls.take (i + 1) ++ (calls.take j).drop (i + 1) := by
    have := (List.take_append_drop (i + 1) (calls.take j)).symm
    rwa [List.take_take, Nat.min_eq_left (by omega)] at this
  rw [hsplit, replayRun, List.foldl_append]
  refine mem_replayRun (windowSound_replayRun hw _) hmem fun d hd => ?_
  exact UInt64.lt_of_le_of_lt (now_le_of_mem_between hclock hc hd) hlive

/-- An admission that states an expiry is made before it, and within the horizon. -/
theorem AdmittedAt.fresh {i : ℕ} {e t : UInt64} (he : e ≠ 0)
    (hadm : AdmittedAt w calls i nonce e t) :
    t < e ∧ e.toNat ≤ t.toNat + (replayRun w (calls.take i)).maxAhead.toNat := by
  obtain ⟨kind, -, hok⟩ := hadm
  have hcase := replayAdmit_cases (replayRun w (calls.take i)) nonce e kind t
  generalize replayAdmit (replayRun w (calls.take i)) nonce e kind t = r at hcase hok
  cases hcase with
  | unsound hw => exact absurd hok (by simp)
  | refused hw err herr => exact absurd hok herr
  | unrecorded hw hz => exact absurd hz he
  | recorded hw he hfresh hahead hnew hroom => exact ⟨hfresh, hahead⟩

/-- No call moves the room or the horizon. -/
theorem replayStep_frame (w : ReplayWindow) (c : ReplayCall) :
    (replayStep w c).capacity = w.capacity ∧ (replayStep w c).maxAhead = w.maxAhead := by
  have hsw (now : UInt64) :
      (swept w now).capacity = w.capacity ∧ (swept w now).maxAhead = w.maxAhead :=
    ⟨swept_capacity w now, swept_maxAhead w now⟩
  cases c with
  | replayExpire now => exact hsw now
  | replayAdmit nonce e kind now =>
    show (replayAdmit w nonce e kind now).2.capacity = w.capacity ∧
      (replayAdmit w nonce e kind now).2.maxAhead = w.maxAhead
    have hcase := replayAdmit_cases w nonce e kind now
    generalize replayAdmit w nonce e kind now = r at hcase ⊢
    cases hcase with
    | unsound hw => exact ⟨rfl, rfl⟩
    | _ => exact hsw now

theorem replayRun_frame (w : ReplayWindow) (calls : List ReplayCall) :
    (replayRun w calls).capacity = w.capacity ∧ (replayRun w calls).maxAhead = w.maxAhead := by
  refine Lib.foldl_induction
    (P := fun v : ReplayWindow => v.capacity = w.capacity ∧ v.maxAhead = w.maxAhead)
    (fun pre c _ hs => ?_) ⟨rfl, rfl⟩
  have hstep := replayStep_frame (pre.foldl replayStep w) c
  exact ⟨hstep.1.trans hs.1, hstep.2.trans hs.2⟩

/-- A step's entries were held before it, or are the one it admits. -/
theorem mem_of_mem_replayStep (hw : WindowSound w) (hx : x ∈ (replayStep w c).entries) :
    x ∈ w.entries ∨ ∃ kind now, c = .replayAdmit x.nonce x.expiresAt kind now ∧
      (replayAdmit w x.nonce x.expiresAt kind now).1 = .ok ∧ x.expiresAt ≠ 0 := by
  cases c with
  | replayExpire now => exact .inl ((mem_swept hw.room).1 hx).1
  | replayAdmit nonce e kind now =>
    change x ∈ (replayAdmit w nonce e kind now).2.entries at hx
    have hcase := replayAdmit_cases w nonce e kind now
    generalize hr : replayAdmit w nonce e kind now = r at hcase hx
    cases hcase with
    | unsound _ => exact .inl hx
    | refused _ err herr => exact .inl ((mem_swept hw.room).1 hx).1
    | unrecorded _ hz => exact .inl ((mem_swept hw.room).1 hx).1
    | recorded _ he hfresh hahead hnew hroom =>
      rcases List.mem_append.1 hx with hx | hx
      · exact .inl ((mem_swept hw.room).1 hx).1
      · obtain rfl := List.mem_singleton.1 hx
        exact .inr ⟨kind, now, rfl, by rw [hr], he⟩

/-- **Every entry goes back to the call that admitted it.** -/
theorem replayRun_entry_admitted (hw : WindowSound w) (hempty : w.entries = []) (n : ℕ) :
    ∀ x ∈ (replayRun w (calls.take n)).entries,
      x.expiresAt ≠ 0 ∧ ∃ i < n, ∃ t, AdmittedAt w calls i x.nonce x.expiresAt t := by
  induction n with
  | zero =>
    intro x hx
    rw [List.take_zero] at hx
    exact absurd (hempty ▸ hx) (by simp)
  | succ n ih =>
    intro x hx
    cases hc : calls[n]? with
    | none =>
      rw [List.take_add_one, hc] at hx
      obtain ⟨hne, i, hi, t, hadm⟩ := ih x (by simpa using hx)
      exact ⟨hne, i, by omega, t, hadm⟩
    | some c =>
      rw [replayRun_take_succ hc] at hx
      rcases mem_of_mem_replayStep (windowSound_replayRun hw _) hx with
        hx | ⟨kind, now, rfl, hok, hne⟩
      · obtain ⟨hne, i, hi, t, hadm⟩ := ih x hx
        exact ⟨hne, i, by omega, t, hadm⟩
      · exact ⟨hne, n, by omega, now, kind, hc, hok⟩

/-- Behind an admit every entry outlives its clock. -/
theorem lt_of_mem_replayAdmit (hw : WindowSound w) {e now : UInt64}
    (hx : x ∈ (replayAdmit w nonce e kind now).2.entries) : now < x.expiresAt := by
  have hcase := replayAdmit_cases w nonce e kind now
  generalize replayAdmit w nonce e kind now = r at hcase hx
  cases hcase with
  | unsound h => exact absurd hw.room (by omega)
  | refused _ err herr => exact ((mem_swept hw.room).1 hx).2
  | unrecorded _ hz => exact ((mem_swept hw.room).1 hx).2
  | recorded _ he hfresh hahead hnew hroom =>
    rcases List.mem_append.1 hx with hx | hx
    · exact ((mem_swept hw.room).1 hx).2
    · obtain rfl := List.mem_singleton.1 hx
      exact hfresh

/-- A nonce is not admitted again before the expiry it was admitted with. -/
theorem AdmittedAt.le_now (hw : WindowSound w) (hclock : calls.Pairwise fun a b => a.now ≤ b.now)
    {i j : ℕ} (hij : i < j) {e e' t t' : UInt64} (he : e ≠ 0) (he' : e' ≠ 0)
    (hi : AdmittedAt w calls i nonce e t) (hj : AdmittedAt w calls j nonce e' t') : e ≤ t' := by
  obtain ⟨kind, hc, hok⟩ := hj
  refine UInt64.not_lt.1 fun hlive => ?_
  have hmem := hi.remembered hw hclock hij he hc hlive
  exact replayAdmit_ne_ok_of_mem he' hmem rfl hlive hok

/-- **No replay.**  In every run of `fzn_replay_admit` and `fzn_replay_expire` on a
window made by `fzn_replay_init`, on a clock that does not run back: a nonce with a
stated expiry is admitted once, and no frame of that nonce is admitted again before
that expiry, whatever it states itself.  The window always has room for what it holds
and holds no nonce twice; behind an admit, every entry outlives the clock and was
admitted by an earlier call within that call's horizon. -/
theorem replay_window_admits_once {capacity : ℕ} {maxAhead : UInt64} {w : ReplayWindow}
    (hinit : replayInit capacity maxAhead = .ok w) (calls : List ReplayCall)
    (hclock : calls.Pairwise fun a b => a.now ≤ b.now) :
    (∀ i j nonce e t t', e ≠ 0 → AdmittedAt w calls i nonce e t →
        AdmittedAt w calls j nonce e t' → i = j) ∧
      (∀ i j nonce e e' t t', i < j → e ≠ 0 → e' ≠ 0 → AdmittedAt w calls i nonce e t →
        AdmittedAt w calls j nonce e' t' → e ≤ t') ∧
      (∀ n, ((replayRun w (calls.take n)).entries.map (·.nonce)).Nodup ∧
        (replayRun w (calls.take n)).entries.length ≤ capacity) ∧
      (∀ n nonce e kind now, calls[n]? = some (.replayAdmit nonce e kind now) →
        ∀ x ∈ (replayRun w (calls.take (n + 1))).entries, now < x.expiresAt ∧
          ∃ i ≤ n, ∃ t, AdmittedAt w calls i x.nonce x.expiresAt t ∧ t < x.expiresAt ∧
            x.expiresAt.toNat ≤ t.toNat + maxAhead.toNat) := by
  obtain rfl := replayInit_ok hinit
  have hw : WindowSound ⟨[], capacity, maxAhead⟩ := ⟨Nat.zero_le _, by simp⟩
  refine ⟨fun i j nonce e t t' he hi hj => ?_,
    fun i j nonce e e' t t' hij he he' hi hj => hi.le_now hw hclock hij he he' hj,
    fun n => ?_, fun n nonce e kind now hc x hx => ?_⟩
  · rcases Nat.lt_trichotomy i j with hij | hij | hij
    · exact absurd (hj.fresh he).1 (UInt64.not_lt.2 (hi.le_now hw hclock hij he he hj))
    · exact hij
    · exact absurd (hi.fresh he).1 (UInt64.not_lt.2 (hj.le_now hw hclock hij he he hi))
  · have hs := windowSound_replayRun hw (calls.take n)
    have hroom := hs.room
    rw [(replayRun_frame _ _).1] at hroom
    exact ⟨hs.distinct, hroom⟩
  · obtain ⟨hne, i, hi, t, hadm⟩ := replayRun_entry_admitted hw rfl (n + 1) x hx
    rw [replayRun_take_succ hc] at hx
    obtain ⟨hfresh, hahead⟩ := hadm.fresh hne
    rw [(replayRun_frame _ _).2] at hahead
    exact ⟨lt_of_mem_replayAdmit (windowSound_replayRun hw _) hx, i, by omega, t, hadm, hfresh,
      hahead⟩

/-- A frame, the same frame again, a sweep at its expiry and the nonce once more. -/
def resentCalls : List ReplayCall :=
  [.replayAdmit 1 5 .required 0, .replayAdmit 1 5 .required 1, .replayExpire 5,
    .replayAdmit 1 9 .optional 5]

/-- The frame sent again is refused; at its expiry the nonce is free. -/
theorem replay_window_admits_once_resent :
    replayInit 2 10 = .ok ⟨[], 2, 10⟩ ∧ AdmittedAt ⟨[], 2, 10⟩ resentCalls 0 1 5 0 ∧
      ¬AdmittedAt ⟨[], 2, 10⟩ resentCalls 1 1 5 1 ∧
      AdmittedAt ⟨[], 2, 10⟩ resentCalls 3 1 9 5 := by
  have hfirst : AdmittedAt ⟨[], 2, 10⟩ resentCalls 0 1 5 0 := ⟨.required, rfl, by decide⟩
  have honce := @replay_window_admits_once 2 10 ⟨[], 2, 10⟩ rfl resentCalls (by decide)
  refine ⟨rfl, hfirst, fun hagain => ?_, .optional, rfl, by decide⟩
  exact absurd (honce.1 0 1 1 5 0 1 (by decide) hfirst hagain) (by decide)

/-! ## The sizing rule -/

/-- A window answers that it is full only when the sweep left it so. -/
theorem capacity_le_of_windowFull {e now : UInt64}
    (hfull : (replayAdmit w nonce e kind now).1 = .windowFull) :
    w.entries.length ≤ w.capacity ∧ w.capacity ≤ (swept w now).entries.length := by
  unfold replayAdmit at hfull
  by_cases hw : w.capacity < w.entries.length
  · simp [hw] at hfull
  rw [if_neg hw] at hfull
  refine ⟨Nat.not_lt.1 hw, Nat.not_lt.1 fun hroom => ?_⟩
  cases hf : freshnessCheck e kind now w.maxAhead with
  | windowFull =>
    unfold freshnessCheck at hf
    split_ifs at hf
    cases kind <;> simp at hf
  | ok =>
    rw [hf] at hfull
    replace hfull : (recordNonce (swept w now) nonce e).1 = .windowFull := hfull
    have hsize : ¬(swept w now).entries.length ≥ (swept w now).capacity := by
      rw [swept_capacity]
      omega
    unfold recordNonce at hfull
    split_ifs at hfull
  | _ => simp [hf] at hfull

/-- **The sizing rule is sound.**  In every run on a window made by `fzn_replay_init`,
on a clock that does not run back, an admit at `t` finds the window full only if at
least `capacity` distinct nonces were admitted at times `t' ≤ t < t' + max_ahead`, the
sums taken in the integers. -/
theorem windowFull_only_over_capacity {capacity : ℕ} {maxAhead : UInt64} {w : ReplayWindow}
    (hinit : replayInit capacity maxAhead = .ok w) (calls : List ReplayCall)
    (hclock : calls.Pairwise fun a b => a.now ≤ b.now) {n : ℕ} {nonce : Nonce} {e t : UInt64}
    {kind : ExpiryRule} (hcall : calls[n]? = some (.replayAdmit nonce e kind t))
    (hfull : (replayAdmit (replayRun w (calls.take n)) nonce e kind t).1 = .windowFull) :
    ∃ nonces : List Nonce, nonces.Nodup ∧ capacity ≤ nonces.length ∧ ∀ x ∈ nonces,
      ∃ i < n, ∃ e' t', AdmittedAt w calls i x e' t' ∧ t' ≤ t ∧
        t.toNat < t'.toNat + maxAhead.toNat := by
  obtain rfl := replayInit_ok hinit
  have hw : WindowSound ⟨[], capacity, maxAhead⟩ := ⟨Nat.zero_le _, by simp⟩
  have hsound := windowSound_swept (windowSound_replayRun hw (calls.take n)) t
  obtain ⟨hroom, hsize⟩ := capacity_le_of_windowFull hfull
  rw [(replayRun_frame _ _).1] at hsize
  refine ⟨_, hsound.distinct, ?_, fun x hx => ?_⟩
  · rw [List.length_map]
    exact hsize
  · obtain ⟨y, hy, rfl⟩ := List.mem_map.1 hx
    obtain ⟨hheld, hlive⟩ := (mem_swept hroom).1 hy
    obtain ⟨hne, i, hi, t', hadm⟩ := replayRun_entry_admitted hw rfl n y hheld
    have hahead := (hadm.fresh hne).2
    rw [(replayRun_frame _ _).2] at hahead
    refine ⟨i, hi, y.expiresAt, t', hadm, ?_, ?_⟩
    · obtain ⟨kind', hci, -⟩ := hadm
      have hmem : ReplayCall.replayAdmit y.nonce y.expiresAt kind' t' ∈ (calls.take n).drop 0 :=
        List.mem_of_getElem? (i := i) (by rw [List.drop_zero, List.getElem?_take, if_pos hi, hci])
      exact now_le_of_mem_between hclock hcall hmem
    · exact Nat.lt_of_lt_of_le (UInt64.lt_iff_toNat_lt.1 hlive) hahead

/-- A frame, and another one before the first has expired. -/
def twoFrames : List ReplayCall :=
  [.replayAdmit 1 5 .required 0, .replayAdmit 2 9 .required 4]

/-- A window of one entry is full for the second frame. -/
theorem windowFull_only_over_capacity_one :
    (replayAdmit (replayRun ⟨[], 1, 10⟩ (twoFrames.take 1)) 2 9 .required 4).1 = .windowFull ∧
      ∃ nonces : List Nonce, nonces.Nodup ∧ 1 ≤ nonces.length ∧ ∀ x ∈ nonces,
        ∃ i < 1, ∃ e' t', AdmittedAt ⟨[], 1, 10⟩ twoFrames i x e' t' ∧ t' ≤ 4 ∧
          (4 : UInt64).toNat < t'.toNat + (10 : UInt64).toNat := by
  have hfull : (replayAdmit (replayRun ⟨[], 1, 10⟩ (twoFrames.take 1)) 2 9 .required 4).1
      = .windowFull := by decide
  have hinit : replayInit 1 10 = .ok ⟨[], 1, 10⟩ := rfl
  exact ⟨hfull, windowFull_only_over_capacity hinit twoFrames (by decide) rfl hfull⟩

end Frame
end Fuzznet
