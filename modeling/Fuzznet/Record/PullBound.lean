/-
# A pull ends

Whatever the peer answers, every step of a pull that goes on has used something up.  A
DIGEST page that is followed by another has added a position, and a planner looks at 1024
at most; a total that shrinks under what was read ends the digest.  A RECORDS reply that is
followed by another of the same range has taken one from what is left of it, and any other
leaves the range.  `Spent` is that account of a pull under way, kept by every step
(`Spent.step`), and `pull_going_bound` is what it comes to.
-/

import Fuzznet.Record.Exchange
import Mathlib.Algebra.Group.Action.Defs
import Mathlib.Algebra.Order.BigOperators.Group.List
import Mathlib.Algebra.Order.Ring.Nat
import Mathlib.Data.Nat.Find

namespace Fuzznet
namespace Record

open Wire Lib

/-- The records the first `n` requests of a plan ask for. -/
def asked (plan : SyncPlan) (n : ℕ) : ℕ :=
  ((plan.requests.take n).map fun r => r.count.toNat).sum

theorem asked_succ {plan : SyncPlan} {n : ℕ} {r : SyncRequest}
    (h : plan.requests[n]? = some r) : asked plan (n + 1) = asked plan n + r.count.toNat := by
  rw [asked, List.take_add_one, h, Option.toList_some, List.map_append, List.sum_append,
    List.map_singleton, List.sum_singleton, asked]

theorem asked_mono {plan : SyncPlan} {m n : ℕ} (h : m ≤ n) : asked plan m ≤ asked plan n := by
  obtain ⟨d, rfl⟩ := Nat.exists_eq_add_of_le h
  rw [asked, asked, List.take_add, List.map_append, List.sum_append]
  exact Nat.le_add_right _ _

/-- The whole plan. -/
def askedAll (plan : SyncPlan) : ℕ := (plan.requests.map fun r => r.count.toNat).sum

theorem asked_le_all (plan : SyncPlan) (n : ℕ) : asked plan n ≤ askedAll plan := by
  have hall : askedAll plan = asked plan (max n plan.requests.length) := by
    rw [asked, List.take_of_length_le (le_max_right _ _), askedAll]
  rw [hall]
  exact asked_mono (le_max_left _ _)

/-! ## The plan is bounded -/

theorem length_addRange {k : StreamKey} {behind ahead cap : UInt64} {outCap : ℕ}
    {plan : SyncPlan} (h : plan.requests.length ≤ outCap) :
    (addRange k behind ahead cap outCap plan).requests.length ≤ outCap := by
  unfold addRange
  split_ifs with hle hfull
  · exact h
  · exact h
  · show (plan.requests ++ [_]).length ≤ outCap
    rw [List.length_append, List.length_singleton]
    omega

theorem length_planFetch {j : Journal} {theirs : List SyncPosition} {cap : UInt64} {outCap : ℕ}
    {plan : SyncPlan} (h : planFetch j theirs cap outCap = some plan) :
    plan.requests.length ≤ outCap := by
  unfold planFetch at h
  split at h
  · cases h
  obtain rfl := Option.some.inj h
  refine Lib.foldl_induction (P := fun plan : SyncPlan => plan.requests.length ≤ outCap)
    (fun pre mine _ hplan => ?_) (Nat.zero_le outCap)
  unfold planEntry
  split
  · exact hplan
  · exact length_addRange hplan

/-! ## The digest -/

/-- **A page that is followed by another has added a position**, and there is room for
more. -/
theorem digestTake_more {d d' : Digest} {reply : Bytes} (h : digestTake d reply = (.more, d')) :
    d.theirs.length < d'.theirs.length ∧ d'.theirs.length < syncMaxPositions := by
  unfold digestTake at h
  split at h
  · cases h
  split at h
  · cases h
  next hok =>
  split at h
  · next hroom =>
    obtain ⟨-, rfl⟩ := Prod.mk.inj h
    refine ⟨?_, hroom.2⟩
    -- The page is not empty: something was left when it was asked for.
    simp only [digestRefuses, decide_eq_true_eq, not_or] at hok
    obtain ⟨-, -, -, hempty⟩ := hok
    have hlen : (digestFill d.theirs reply).length =
        d.theirs.length + min (syncMaxPositions - d.theirs.length) (getBe reply 6 2) := by
      rw [digestFill, List.length_append, List.length_take, List.length_map, List.length_range]
    rw [hlen] at hroom
    show d.theirs.length < (digestFill d.theirs reply).length
    rw [hlen]
    by_contra hnone
    have hzero : min (syncMaxPositions - d.theirs.length) (getBe reply 6 2) = 0 := by omega
    rcases Nat.min_eq_zero_iff.1 hzero with hfull | hcount
    · omega
    · exact hempty ⟨hcount, by omega⟩
  · cases h

/-! ## The records -/

section Take

variable {S : Type} {sign : SignOps} {hash : HashOps} {ops : StoreOps S} {want : SyncRequest}

theorem takeNext_go {off off' : ℕ} {s s' : Taking S} (h : takeNext off s = .go off' s')
    (hleft : s.left ≠ 0) : s'.left ≠ 0 ∧ s'.left.toNat + 1 = s.left.toNat := by
  unfold takeNext at h
  split at h
  · cases h
  next hne =>
  obtain ⟨-, rfl⟩ := TakeTurn.go.inj h
  refine ⟨hne, ?_⟩
  have hpos : 1 ≤ s.left := UInt64.le_iff_toNat_le.2 (by
    have hz : s.left.toNat ≠ 0 := fun hz => hleft (UInt64.toNat_inj.1 hz)
    show 1 ≤ s.left.toNat
    omega)
  show (s.left - 1).toNat + 1 = s.left.toNat
  rw [UInt64.toNat_sub_of_le _ _ hpos]
  have hle : 1 ≤ s.left.toNat := UInt64.le_iff_toNat_le.1 hpos
  show s.left.toNat - 1 + 1 = s.left.toNat
  omega

/-- A turn that goes on has taken one from what is left. -/
theorem takeOne_go {reply : Bytes} {off off' : ℕ} {s s' : Taking S}
    (h : takeOne sign hash ops want reply off s = .go off' s') (hleft : s.left ≠ 0) :
    s'.left ≠ 0 ∧ s'.left.toNat + 1 = s.left.toNat := by
  unfold takeOne at h
  split at h
  · cases h
  split at h
  · cases h
  split at h
  · cases h
  unfold takeAdmitted at h
  split at h
  · cases h
  · unfold takeStored at h
    obtain ⟨-, h⟩ := past_check h nofun
    have hgo := takeNext_go h hleft
    exact hgo
  · have hgo := takeNext_go h hleft
    exact hgo
  · cases h

theorem takeLoop_more {reply : Bytes} {n off : ℕ} {s s' : Taking S}
    (h : takeLoop sign hash ops want reply n off s = (.more, s')) (hleft : s.left ≠ 0) :
    s'.left ≠ 0 ∧ s'.left.toNat + n = s.left.toNat := by
  induction n generalizing off s with
  | zero =>
    obtain ⟨-, rfl⟩ := Prod.mk.inj h
    exact ⟨hleft, rfl⟩
  | succ n ih =>
    rw [takeLoop] at h
    split at h
    · next off' t hturn =>
      obtain ⟨hne, hone⟩ := takeOne_go hturn hleft
      obtain ⟨hne', hrest⟩ := ih h hne
      exact ⟨hne', by omega⟩
    · cases (Prod.mk.inj h).1

/-- **A reply that is followed by another of the same range has taken a record of it.** -/
theorem takeRecords_more {reply : Bytes} {s s' : Taking S}
    (h : takeRecords sign hash ops want reply s = (.more, s')) (hleft : s.left ≠ 0) :
    s'.left.toNat < s.left.toNat := by
  unfold takeRecords at h
  split at h
  · cases (Prod.mk.inj h).1
  split at h
  · cases (Prod.mk.inj h).1
  next hcount =>
  obtain ⟨-, hall⟩ := takeLoop_more h hleft
  omega

end Take

/-! ## The steps -/

/-- A range that is being paged: within the plan, with something left of it. -/
structure Paging (p : Pulling) : Prop where
  left : p.left ≠ 0
  want : ∃ r, p.plan.requests[p.want]? = some r ∧ p.left.toNat ≤ r.count.toNat

/-- Where `next_want` leaves a pull: over, or paging a range from its start. -/
theorem nextWant_spec (p : Pulling) :
    (nextWant p).1.err = .ok ∧ (nextWant p).2.plan = p.plan ∧
      ((nextWant p).1.done = false → (nextWant p).2.phase = p.phase ∧ Paging (nextWant p).2 ∧
        asked p.plan p.want + (nextWant p).2.left.toNat ≤
          asked p.plan ((nextWant p).2.want + 1)) := by
  obtain ⟨rs, hrs⟩ : ∃ rs, rs = p.plan.requests.drop p.want := ⟨_, rfl⟩
  rw [nextWant, ← hrs]
  induction rs generalizing p with
  | nil => exact ⟨rfl, rfl, fun h => by cases h⟩
  | cons r rs ih =>
    have hat : p.plan.requests[p.want]? = some r := by
      rw [← List.head?_drop, ← hrs, List.head?_cons]
    rw [nextWantFrom]
    by_cases hcount : r.count ≠ 0
    · rw [if_pos hcount]
      refine ⟨rfl, rfl, fun _ => ⟨rfl, ⟨hcount, r, hat, le_refl _⟩, ?_⟩⟩
      show asked p.plan p.want + r.count.toNat ≤ asked p.plan (p.want + 1)
      rw [asked_succ hat]
    · rw [if_neg hcount]
      obtain ⟨herr, hplan, hgo⟩ := ih
        { p with want := p.want + 1, next := r.fromSeq, left := r.count } (by
          show rs = p.plan.requests.drop (p.want + 1)
          rw [← List.drop_drop, ← hrs, List.drop_one, List.tail_cons])
      refine ⟨herr, hplan, fun hdone => ?_⟩
      obtain ⟨hphase, hpaging, hask⟩ := hgo hdone
      exact ⟨hphase, hpaging, (Nat.add_le_add_right (asked_mono (Nat.le_succ _)) _).trans hask⟩

variable {S : Type} {sign : SignOps} {hash : HashOps} {ops : StoreOps S}

/-- What a pull under way has used of what it may. -/
inductive UnderWay (p : Pulling) (steps : ℕ) : Prop
  | digest (hphase : p.phase = .digest) (hroom : p.digest.theirs.length < syncMaxPositions)
      (hsteps : steps ≤ p.digest.theirs.length) : UnderWay p steps
  | records (hphase : p.phase = .records) (hpaging : Paging p)
      (hsteps : steps + p.left.toNat ≤ syncMaxPositions + asked p.plan (p.want + 1)) :
      UnderWay p steps

/-- The account of what a step leaves, with the step in it: over, no more was used than
there is. -/
structure Accounted (steps : ℕ) (r : PullAnswer × PullWorld S) : Prop where
  within : steps ≤ syncMaxPositions + askedAll r.2.pulling.plan
  plan : r.2.pulling.plan.requests.length ≤ syncMaxPositions
  going : r.1.err = .ok → r.1.done = false → UnderWay r.2.pulling steps

variable {w : PullWorld S} {steps : ℕ} {reply : Bytes} {plan : SyncPlan}

theorem accounted_pullFails {err : ExchangeErr} (herr : err ≠ .ok)
    (hwithin : steps ≤ syncMaxPositions + askedAll w.pulling.plan)
    (hplan : w.pulling.plan.requests.length ≤ syncMaxPositions) :
    Accounted steps (pullFails err w) :=
  ⟨hwithin, hplan, fun h => absurd h herr⟩

theorem accounted_pullWants (hphase : w.pulling.phase = .records)
    (hwithin : steps ≤ syncMaxPositions + asked w.pulling.plan w.pulling.want)
    (hplan : w.pulling.plan.requests.length ≤ syncMaxPositions) :
    Accounted steps (pullWants w) := by
  obtain ⟨-, hsame, hgo⟩ := nextWant_spec w.pulling
  refine ⟨?_, ?_, fun _ hdone => ?_⟩
  · show steps ≤ syncMaxPositions + askedAll (nextWant w.pulling).2.plan
    rw [hsame]
    have := asked_le_all w.pulling.plan w.pulling.want
    omega
  · show (nextWant w.pulling).2.plan.requests.length ≤ syncMaxPositions
    rw [hsame]
    exact hplan
  · obtain ⟨hphase', hpaging, hask⟩ := hgo hdone
    refine .records (hphase'.trans hphase) hpaging ?_
    show steps + (nextWant w.pulling).2.left.toNat ≤
      syncMaxPositions + asked (nextWant w.pulling).2.plan ((nextWant w.pulling).2.want + 1)
    rw [hsame]
    omega

theorem accounted_pullDigest (hphase : w.pulling.phase = .digest)
    (hroom : w.pulling.digest.theirs.length < syncMaxPositions)
    (hsteps : steps ≤ w.pulling.digest.theirs.length)
    (hplan : w.pulling.plan.requests.length ≤ syncMaxPositions) :
    Accounted (steps + 1) (pullDigest w reply) := by
  have hwithin : steps + 1 ≤ syncMaxPositions := by omega
  unfold pullDigest
  split
  · exact accounted_pullFails (by decide) (by omega) hplan
  · next d hmore =>
    obtain ⟨hlt, hlt'⟩ := digestTake_more hmore
    refine ⟨by omega, hplan, fun _ _ => .digest hphase hlt' ?_⟩
    show steps + 1 ≤ d.theirs.length
    omega
  · next d _ =>
    split
    · exact accounted_pullFails (by decide) (by omega) (Nat.zero_le _)
    · next plan hfetch =>
      exact accounted_pullWants rfl (by omega) (length_planFetch hfetch)

theorem accounted_pullRecords {want : SyncRequest} (hphase : w.pulling.phase = .records)
    (hpaging : Paging w.pulling) (hsteps : steps + w.pulling.left.toNat ≤
      syncMaxPositions + asked w.pulling.plan (w.pulling.want + 1))
    (hplan : w.pulling.plan.requests.length ≤ syncMaxPositions) :
    Accounted (steps + 1) (pullRecords sign hash ops want w reply) := by
  have hpos : w.pulling.left.toNat ≠ 0 := fun h => hpaging.left (UInt64.toNat_inj.1 h)
  have hall := asked_le_all w.pulling.plan (w.pulling.want + 1)
  have hpast : ∀ s : Taking S, Accounted (steps + 1) (pullWants (s.past w)) := by
    intro s
    refine accounted_pullWants hphase ?_ hplan
    show steps + 1 ≤ syncMaxPositions + asked w.pulling.plan (w.pulling.want + 1)
    omega
  unfold pullRecords
  split
  · next s hmore =>
    have hless := takeRecords_more hmore hpaging.left
    split
    · next hleft =>
      obtain ⟨r, hr, hle⟩ := hpaging.want
      refine ⟨?_, hplan, fun _ _ => .records hphase ⟨hleft, r, hr, ?_⟩ ?_⟩
      · show steps + 1 ≤ syncMaxPositions + askedAll w.pulling.plan
        omega
      · show s.left.toNat ≤ r.count.toNat
        exact hless.le.trans hle
      · show steps + 1 + s.left.toNat ≤
          syncMaxPositions + asked w.pulling.plan (w.pulling.want + 1)
        have hless' : s.left.toNat < w.pulling.left.toNat := hless
        omega
    · exact hpast s
  · next err s _ =>
    split
    · next herr =>
      refine accounted_pullFails herr ?_ hplan
      show steps + 1 ≤ syncMaxPositions + askedAll w.pulling.plan
      omega
    · exact hpast s

/-- **One step, whatever the reply**: it is accounted for. -/
theorem accounted_pullStep (reply : Option Bytes) (h : UnderWay w.pulling steps)
    (hplan : w.pulling.plan.requests.length ≤ syncMaxPositions) :
    Accounted (steps + 1) (pullStep sign hash ops w reply) := by
  cases h with
  | digest hphase hroom hsteps =>
    unfold pullStep
    rw [hphase]
    cases reply with
    | none => exact accounted_pullFails (by decide) (by omega) hplan
    | some bs => exact accounted_pullDigest hphase hroom hsteps hplan
  | records hphase hpaging hsteps =>
    have hpos : w.pulling.left.toNat ≠ 0 := fun h => hpaging.left (UInt64.toNat_inj.1 h)
    have hall := asked_le_all w.pulling.plan (w.pulling.want + 1)
    obtain ⟨r, hr, -⟩ := hpaging.want
    unfold pullStep
    rw [hphase]
    cases reply with
    | none => exact accounted_pullFails (by decide) (by omega) hplan
    | some bs =>
      simp only [hr]
      exact accounted_pullRecords hphase hpaging hsteps hplan

/-! ## The whole pull -/

/-- The account of a pull driven. -/
structure Spent (run : PullRun S) : Prop where
  within : run.steps ≤ syncMaxPositions + run.requested
  plan : run.world.pulling.plan.requests.length ≤ syncMaxPositions
  going : run.going = true → UnderWay run.world.pulling run.steps

theorem spent_pullStart (cap : UInt64) (j : Journal) (st : S) : Spent (pullStart cap j st) := by
  unfold pullStart pullBegin
  by_cases hcap : cap = 0
  · rw [if_pos hcap]
    exact ⟨Nat.zero_le _, Nat.zero_le _, fun h => by cases h⟩
  · rw [if_neg hcap]
    exact ⟨Nat.zero_le _, Nat.zero_le _,
      fun _ => .digest rfl (show 0 < syncMaxPositions by decide) (le_refl 0)⟩

theorem Spent.step {run : PullRun S} (h : Spent run) (reply : Option Bytes) :
    Spent (driveStep sign hash ops run reply) := by
  unfold driveStep
  by_cases hgoing : run.going = true
  · rw [if_pos hgoing]
    obtain ⟨hwithin, hplan, hgo⟩ := accounted_pullStep
      reply (h.going hgoing) h.plan
    refine ⟨hwithin, hplan, fun hnext => ?_⟩
    simp only [PullRun.going, Bool.and_eq_true, decide_eq_true_eq, Bool.not_eq_true'] at hnext
    exact hgo hnext.1 hnext.2
  · rw [if_neg hgoing]
    exact h

theorem spent_drive (cap : UInt64) (j : Journal) (st : S) (replies : List (Option Bytes)) :
    Spent (drive sign hash ops cap j st replies) :=
  Lib.foldl_induction (fun _ reply _ h => h.step reply) (spent_pullStart cap j st)

theorem drive_concat {cap : UInt64} {j : Journal} {st : S} (replies : List (Option Bytes))
    (reply : Option Bytes) : drive sign hash ops cap j st (replies ++ [reply]) =
      driveStep sign hash ops (drive sign hash ops cap j st replies) reply := by
  unfold drive
  rw [List.foldl_append]
  rfl

/-- While a pull goes on, every reply was a step. -/
theorem steps_of_going {cap : UInt64} {j : Journal} {st : S} (replies : List (Option Bytes)) :
    (drive sign hash ops cap j st replies).going = true →
      (drive sign hash ops cap j st replies).steps = replies.length := by
  refine Lib.prefix_induction (P := fun pre => (drive sign hash ops cap j st pre).going = true →
    (drive sign hash ops cap j st pre).steps = pre.length) ?_ fun pre reply _ ih => ?_
  · intro _
    show (pullStart cap j st).steps = 0
    unfold pullStart
    split <;> rfl
  · rw [drive_concat, List.length_append, List.length_singleton]
    unfold driveStep
    by_cases hgoing : (drive sign hash ops cap j st pre).going = true
    · rw [if_pos hgoing]
      intro _
      show (drive sign hash ops cap j st pre).steps + 1 = pre.length + 1
      rw [ih hgoing]
    · rw [if_neg hgoing]
      exact fun h => absurd h hgoing

/-- A pull that goes on has not used what it may. -/
theorem Spent.steps_lt {run : PullRun S} (h : Spent run) (hgoing : run.going = true) :
    run.steps < syncMaxPositions + run.requested := by
  cases h.going hgoing with
  | digest hphase hroom hsteps => omega
  | records hphase hpaging hsteps =>
    have hpos : run.world.pulling.left.toNat ≠ 0 := fun hz => hpaging.left (UInt64.toNat_inj.1 hz)
    have hall : asked run.world.pulling.plan (run.world.pulling.want + 1) ≤ run.requested :=
      asked_le_all _ _
    omega

/-- A plan's requests are few, and each is a 64-bit number of records. -/
theorem Spent.requested_le {run : PullRun S} (h : Spent run) :
    run.requested ≤ syncMaxPositions * 2 ^ 64 := by
  have hsum := List.sum_le_card_nsmul (run.world.pulling.plan.requests.map fun r => r.count.toNat)
    (2 ^ 64) (by
      intro n hn
      obtain ⟨r, -, rfl⟩ := List.mem_map.1 hn
      exact r.count.toNat_lt.le)
  rw [List.length_map, smul_eq_mul] at hsum
  exact hsum.trans (Nat.mul_le_mul_right _ h.plan)

/-- **A pull ends against any peer**, after no more steps than there are pages of the digest
and records requested. -/
theorem exists_not_going (cap : UInt64) (j : Journal) (st : S) (replies : ℕ → Option Bytes) :
    ∃ n, (drive sign hash ops cap j st ((List.range n).map replies)).going = false ∧
      n ≤ syncMaxPositions +
        (drive sign hash ops cap j st ((List.range n).map replies)).requested := by
  have hspent : ∀ n, Spent (drive sign hash ops cap j st ((List.range n).map replies)) :=
    fun n => spent_drive cap j st _
  have hsteps : ∀ n, (drive sign hash ops cap j st ((List.range n).map replies)).going = true →
      (drive sign hash ops cap j st ((List.range n).map replies)).steps = n := by
    intro n hgoing
    rw [steps_of_going _ hgoing, List.length_map, List.length_range]
  have hends : ∃ n, (drive sign hash ops cap j st ((List.range n).map replies)).going = false := by
    by_contra hnever
    rw [not_exists] at hnever
    have hgoing := Bool.eq_true_of_not_eq_false
      (hnever (syncMaxPositions + syncMaxPositions * 2 ^ 64))
    have hlt := (hspent _).steps_lt hgoing
    have hle := (hspent (syncMaxPositions + syncMaxPositions * 2 ^ 64)).requested_le
    rw [hsteps _ hgoing] at hlt
    omega
  -- The first reply after which it is over was the last step.
  refine ⟨Nat.find hends, Nat.find_spec hends, ?_⟩
  rcases Nat.eq_zero_or_pos (Nat.find hends) with hzero | hpos
  · rw [hzero]
    exact Nat.zero_le _
  · obtain ⟨n, hn⟩ : ∃ n, Nat.find hends = n + 1 := ⟨Nat.find hends - 1, by omega⟩
    have hgoing : (drive sign hash ops cap j st ((List.range n).map replies)).going = true :=
      Bool.eq_true_of_not_eq_false (Nat.find_min hends (by omega))
    have hrun : drive sign hash ops cap j st ((List.range (n + 1)).map replies) =
        driveStep sign hash ops (drive sign hash ops cap j st ((List.range n).map replies))
          (replies n) := by
      rw [List.range_succ, List.map_append, List.map_singleton, drive_concat]
    have hlast :
        (drive sign hash ops cap j st ((List.range (n + 1)).map replies)).steps = n + 1 := by
      rw [hrun, driveStep, if_pos hgoing]
      show (drive sign hash ops cap j st ((List.range n).map replies)).steps + 1 = n + 1
      rw [hsteps n hgoing]
    have hwithin := (hspent (n + 1)).within
    rw [hlast] at hwithin
    rw [hn]
    exact hwithin

end Record
end Fuzznet
