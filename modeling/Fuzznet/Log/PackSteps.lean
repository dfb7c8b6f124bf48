/-
# A packed segment checked in steps, and at once

`pack.h` says that the last step's answer is the whole check's.  A step keeps what `Stepping`
says, as a turn of the check without a budget does, and what a step's loop comes to is one of
`StepEnds`: the budget's end, the file's, a chunk the hash refuses, or the bound passed.

Where a budget ends with the content's last byte, the step's call of zstd has filled its
room, and the next step takes that for more to come.  It asks zstd once more, that begins
another frame, and a check that ends inside a frame is refused.  The same happens where the
content ends with the window (`EndsFull`).  `steps_at_once` says that nothing else comes
between the steps' answer and the whole check's, but a hash that refuses a chunk in front of
the bound.
-/

import Fuzznet.Log.PackVerify

namespace Fuzznet
namespace Log

open Wire Lib

variable {z : Zstd} {hash : HashOps} {sign : Option SignOps} {prev : Bytes32}
variable {frame content : Bytes} {At : z.Stream → ℕ → ℕ → Prop} {unpackedMax : Option ℕ}
variable {limit i fed given k : ℕ} {v : Verifying z}

/-! ## The check at once -/

theorem verifyAtOnce_passes (h : passes unpackedMax content.length) :
    verifyAtOnce hash sign unpackedMax prev content = .error .tooLarge := if_pos h

theorem verifyAtOnce_sealed {body : Bytes} {tr : Trailer}
    (h : ¬ passes unpackedMax content.length) (hs : Sealed hash prev content body tr) :
    verifyAtOnce hash sign unpackedMax prev content = checkSignature sign tr := by
  obtain ⟨hclosed, ⟨line, rfl, hparse⟩, hprev, hchain⟩ := hs
  rw [verifyAtOnce, if_neg h, lineStart_trailer hclosed hparse]
  dsimp only
  rw [List.drop_left, hparse, List.take_left]
  dsimp only
  rw [if_pos ⟨hprev, hchain⟩]

theorem verifyAtOnce_unsealed (h : ¬ passes unpackedMax content.length)
    (hs : ∀ body tr, ¬ Sealed hash prev content body tr) :
    verifyAtOnce hash sign unpackedMax prev content = .error .chain := by
  rw [verifyAtOnce, if_neg h]
  dsimp only
  split
  next => rfl
  next tr hparse =>
    rw [if_neg]
    rintro ⟨hprev, hchain⟩
    exact hs _ tr ⟨closed_take_lineStart _ _, ⟨_, (List.take_append_drop _ _).symm, hparse⟩,
      hprev, hchain⟩

/-- A check at once is not answered with what zstd says. -/
theorem verifyAtOnce_ne_zstd :
    verifyAtOnce hash sign unpackedMax prev content ≠ .error .zstd := by
  by_cases h : passes unpackedMax content.length
  · rw [verifyAtOnce_passes h]
    simp
  · by_cases hs : ∃ body tr, Sealed hash prev content body tr
    · obtain ⟨body, tr, hs⟩ := hs
      rw [verifyAtOnce_sealed h hs]
      unfold checkSignature
      split
      next =>
        split
        next => simp
        next => simp
      next => simp
    · rw [verifyAtOnce_unsealed h fun body tr hsealed => hs ⟨body, tr, hsealed⟩]
      simp

/-- **The last line** of a frame read to its end is checked as at once. -/
theorem Window.finish_at_once (h : Window hash prev content k v) (hlast : v.last = 0)
    (hwithin : ¬ passes unpackedMax content.length) :
    verifyFinish hash sign prev v = verifyAtOnce hash sign unpackedMax prev content := by
  by_cases hs : ∃ body tr, Sealed hash prev content body tr
  · obtain ⟨body, tr, hs⟩ := hs
    rw [h.finish_sealed hlast hs, verifyAtOnce_sealed hwithin hs]
  · rw [verifyAtOnce_unsealed hwithin fun body tr hsealed => hs ⟨body, tr, hsealed⟩]
    rcases h.finish_cases hlast with hchain | ⟨body, tr, hsealed, -⟩
    · exact hchain
    · exact absurd ⟨body, tr, hsealed⟩ hs

/-! ## One step -/

/-- What is known within a step that ends at `limit` bytes. -/
structure Stepping (hash : HashOps) (prev : Bytes32) (frame content : Bytes)
    (At : z.Stream → ℕ → ℕ → Prop) (unpackedMax : Option ℕ) (limit i fed given k : ℕ)
    (v : Verifying z) : Prop where
  asked : Asked frame content At limit i fed given v
  window : Window hash prev (content.take given) k v
  count : v.unpacked = given
  within : ¬ passes unpackedMax given

/-- What the loop of a step that ends at `limit` bytes comes to. -/
inductive StepEnds (hash : HashOps) (prev : Bytes32) (frame content : Bytes)
    (At : z.Stream → ℕ → ℕ → Prop) (unpackedMax : Option ℕ) (limit : ℕ) : Turn z → Prop
  | refused (h : RefusedWithin hash prev unpackedMax content) :
      StepEnds hash prev frame content At unpackedMax limit (.failed .chain)
  | passed (h : passes unpackedMax content.length)
      (hnot : ¬ RefusedWithin hash prev unpackedMax content) :
      StepEnds hash prev frame content At unpackedMax limit (.failed .tooLarge)
  | ended {k : ℕ} {v : Verifying z} (hwithin : ¬ passes unpackedMax content.length)
      (hwin : Window hash prev content k v) (hlimit : content.length < limit)
      (hlast : v.last = 0 ↔ ¬ EndsEdge z frame content limit) :
      StepEnds hash prev frame content At unpackedMax limit (.ended v)
  | more {i fed k : ℕ} {v : Verifying z}
      (h : Stepping hash prev frame content At unpackedMax limit i fed limit k v) :
      StepEnds hash prev frame content At unpackedMax limit (.more v)

theorem stepTurn_end (hnil : v.input = []) (hquiet : v.outFull = false)
    (hunread : v.unread = []) : stepTurn z hash unpackedMax limit v = .ended v := by
  rw [stepTurn, ready, if_pos ⟨hnil, hquiet⟩, if_pos hunread]

theorem stepLoop_more {v' : Verifying z} (hlt : v.unpacked < limit)
    (h : stepTurn z hash unpackedMax limit v = .more v') (n : ℕ) :
    stepLoop z hash unpackedMax limit (n + 1) v = stepLoop z hash unpackedMax limit n v' := by
  rw [stepLoop, if_pos hlt, h]

theorem stepLoop_stop (hnot : ¬ v.unpacked < limit) :
    Returns (fun n => stepLoop z hash unpackedMax limit n v) (.more v) := by
  refine ⟨1, fun n hn => ?_⟩
  obtain ⟨m, rfl⟩ := Nat.exists_eq_add_of_le' hn
  show stepLoop z hash unpackedMax limit (m + 1) v = _
  rw [stepLoop, if_neg hnot]

theorem stepLoop_over {r : Turn z} (hlt : v.unpacked < limit)
    (h : stepTurn z hash unpackedMax limit v = r) (hover : ∀ v', r ≠ .more v') :
    Returns (fun n => stepLoop z hash unpackedMax limit n v) r := by
  refine ⟨1, fun n hn => ?_⟩
  obtain ⟨m, rfl⟩ := Nat.exists_eq_add_of_le' hn
  show stepLoop z hash unpackedMax limit (m + 1) v = _
  rw [stepLoop, if_pos hlt, h]
  cases r with
  | more v' => exact absurd rfl (hover v')
  | ended v' => rfl
  | failed err => rfl

/-- **A frame's end that filled its room**: zstd is asked once more, and the step ends inside
another frame. -/
theorem stepLoop_again (hash : HashOps) (hz : z.Unpacks frame content At)
    (h : Feed frame At i frame.length content.length v) (hfull : v.outFull = true)
    (hpart : v.pending.length < windowLen) (hlt : v.unpacked < limit)
    (hwithin : ¬ passes unpackedMax v.unpacked) :
    ∃ v', v'.last ≠ 0 ∧ v'.pending = v.pending ∧ v'.state = v.state ∧ v'.folded = v.folded ∧
      Returns (fun n => stepLoop z hash unpackedMax limit n v) (.ended v') := by
  have hroom : 0 < roomLeft limit v := by
    unfold roomLeft
    omega
  obtain ⟨v', hmore, hlast, hnil, hunread, hquiet, hpending, hstate, hfolded, hunpacked⟩ :=
    unpackInto_again hash hz h hroom hpart hwithin
  have hturn : stepTurn z hash unpackedMax limit v = .more v' := by
    rw [stepTurn, ready, if_neg (by simp [hfull])]
    exact hmore
  have hend : stepTurn z hash unpackedMax limit v' = .ended v' :=
    stepTurn_end hnil hquiet hunread
  have hloop := stepLoop_over (hunpacked ▸ hlt) hend nofun
  exact ⟨v', hlast, hpending, hstate, hfolded, hloop.succ (stepLoop_more hlt hturn)⟩

/-- **A step** comes to an end. -/
theorem Stepping.loop (hz : z.Unpacks frame content At)
    (h : Stepping hash prev frame content At unpackedMax limit i fed given k v) :
    ∃ t, StepEnds hash prev frame content At unpackedMax limit t ∧
      Returns (fun n => stepLoop z hash unpackedMax limit n v) t := by
  induction hm : toDo content given v using Nat.strongRecOn generalizing i fed given k v with
  | ind m ih =>
    obtain ⟨hasked, hwin, rfl, hwithin⟩ := h
    by_cases hlt : v.unpacked < limit
    · by_cases hend : fed = frame.length ∧ v.unpacked = content.length
      · obtain ⟨rfl, hgiven⟩ := hend
        have hwhole : Window hash prev content k v := by
          rwa [hgiven, List.take_length] at hwin
        have hends := hasked.ends rfl hgiven
        have hfeed := hasked.feed
        obtain ⟨hnil, hunread⟩ := hfeed.complete
        cases hfull : v.outFull with
        | false =>
          rw [hfull] at hends
          refine ⟨_, .ended (hgiven ▸ hwithin) hwhole (hgiven ▸ hlt) ?_,
            stepLoop_over hlt (stepTurn_end hnil hfull hunread) nofun⟩
          rw [hasked.last]
          exact ⟨fun _ hedge => by simpa using hends.2 hedge, fun _ => ⟨rfl, hgiven⟩⟩
        | true =>
          rw [hgiven] at hfeed
          obtain ⟨v', hlast, hpending, hstate, hfolded, hreturns⟩ :=
            stepLoop_again hash hz hfeed hfull hwin.room hlt hwithin
          exact ⟨_, .ended (hgiven ▸ hwithin) (hwhole.congr hpending hstate hfolded)
            (hgiven ▸ hlt) ⟨fun h₀ => absurd h₀ hlast, fun hnot => absurd (hends.1 hfull) hnot⟩,
            hreturns⟩
      · obtain ⟨input, unread, i', hready, hfeed, hask, hle⟩ :=
          hasked.feed.ready hz hasked.dry hend
        have hturn : ∀ t, unpackInto z hash unpackedMax (roomLeft limit v)
            { v with input := input, unread := unread } = t →
            stepTurn z hash unpackedMax limit v = t := by
          intro t ht
          rw [stepTurn, hready]
          exact ht
        rcases hfeed.unpack hz ⟨hwin.cut, hwin.room, hwin.folded, hwin.kept⟩ hend hask hlt rfl
          (fun _ _ => rfl) with ⟨hfail, hrefused⟩ | ⟨hfail, hpasses, hnot⟩ |
          ⟨v', fed', given', k', hmore, hasked', hwin', hcount, hwithin', hless⟩
        · exact ⟨_, .refused hrefused, stepLoop_over hlt (hturn _ hfail) nofun⟩
        · exact ⟨_, .passed hpasses hnot, stepLoop_over hlt (hturn _ hfail) nofun⟩
        · have hcount' : v'.unpacked = given' := by
            have : v'.unpacked + v.unpacked = v.unpacked + given' := hcount
            omega
          obtain ⟨t, hends, hreturns⟩ := ih _ (hm ▸ hless.trans_le hle)
            ⟨hasked', hwin', hcount', hcount' ▸ hwithin'⟩ rfl
          exact ⟨t, hends, hreturns.succ (stepLoop_more hlt (hturn _ hmore))⟩
    · obtain rfl : v.unpacked = limit := Nat.le_antisymm hasked.under (Nat.not_lt.1 hlt)
      exact ⟨_, .more ⟨hasked, hwin, rfl, hwithin⟩, stepLoop_stop hlt⟩

/-! ## Steps until one is done -/

/-- One of these steps ends behind `n` bytes. -/
def BudgetsEnd (budgets : List UInt64) (n : ℕ) : Prop :=
  ∃ j, ((budgets.take j).map UInt64.toNat).sum = n

/-- The content's last byte fills the window, or is the last of one of these steps, the first of
which begins behind `given` bytes; and it is in the last read of the frame. -/
def EndsStep (z : Zstd) (frame content : Bytes) (given : ℕ) (budgets : List UInt64) : Prop :=
  (windowLen ≤ content.length ∧ content.length % chunkLen = trailerMax ∨
    BudgetsEnd budgets (content.length - given)) ∧
  z.decoded frame (lastRead frame) < content.length

/-- What the steps answer, `edge` being whether the content's end filled the room it had. -/
inductive StepsAnswer (hash : HashOps) (sign : Option SignOps) (unpackedMax : Option ℕ)
    (prev : Bytes32) (content : Bytes) (edge : Prop) : Except PackErr Verified → Prop
  | refused (h : RefusedWithin hash prev unpackedMax content) :
      StepsAnswer hash sign unpackedMax prev content edge (.error .chain)
  | passed (h : passes unpackedMax content.length)
      (hnot : ¬ RefusedWithin hash prev unpackedMax content) :
      StepsAnswer hash sign unpackedMax prev content edge (.error .tooLarge)
  | again (hwithin : ¬ passes unpackedMax content.length)
      (hnot : ¬ RefusedWithin hash prev unpackedMax content) (hedge : edge) :
      StepsAnswer hash sign unpackedMax prev content edge (.error .zstd)
  | atOnce (hwithin : ¬ passes unpackedMax content.length)
      (hnot : ¬ RefusedWithin hash prev unpackedMax content) (hedge : ¬ edge) :
      StepsAnswer hash sign unpackedMax prev content edge
        (verifyAtOnce hash sign unpackedMax prev content)

theorem stepUntil_eq {unpacked : ℕ} (h : unpacked ≤ uintMax) (budget : UInt64) :
    stepUntil unpacked budget = min (unpacked + budget.toNat) uintMax := by
  have hlt := budget.toNat_lt
  unfold stepUntil
  unfold uintMax at h ⊢
  split
  next => omega
  next => omega

theorem budgetsEnd_cons {budget : UInt64} {budgets : List UInt64} {n : ℕ} :
    BudgetsEnd (budget :: budgets) n ↔
      n = 0 ∨ budget.toNat ≤ n ∧ BudgetsEnd budgets (n - budget.toNat) := by
  constructor
  · rintro ⟨j, hj⟩
    cases j with
    | zero => exact Or.inl hj.symm
    | succ j =>
      rw [List.take_succ_cons, List.map_cons, List.sum_cons] at hj
      exact Or.inr ⟨by omega, j, by omega⟩
  · rintro (rfl | ⟨hle, j, hj⟩)
    · exact ⟨0, rfl⟩
    · refine ⟨j + 1, ?_⟩
      rw [List.take_succ_cons, List.map_cons, List.sum_cons, hj]
      omega

/-- A frame that is not complete has some of its content to come, if its last read has any. -/
theorem Asked.unfinished (hz : z.Unpacks frame content At)
    (h : Asked frame content At limit i fed given v)
    (hopen : ¬ (fed = frame.length ∧ given = content.length))
    (hless : z.decoded frame (lastRead frame) < content.length) : given < content.length := by
  refine lt_of_le_of_ne h.givenLe fun hall => ?_
  have hto := h.feed.readTo
  have hle := h.feed.givenLe
  have hfed := h.feed.fedLe
  rcases Nat.lt_or_ge (i * inbufLen) frame.length with hmore | hread
  · -- The last read is to come: all was given out of the reads before.
    rw [min_eq_left hmore.le] at hto
    rw [hto] at hle
    have hbefore : i * inbufLen ≤ lastRead frame := by
      have hpos : 0 < inbufLen := by decide
      exact Nat.mul_le_mul_right _ ((Nat.le_div_iff_mul_le hpos).2 (by omega))
    have := hz.mono _ _ hbefore
    omega
  · have hpos : 0 < i := by
      rcases Nat.eq_zero_or_pos i with rfl | hpos
      · have hnone := hz.none
        have hwhole := hz.whole
        rw [Nat.zero_mul] at hread
        rw [Nat.le_zero.1 hread, hnone] at hwhole
        omega
      · exact hpos
    obtain ⟨hlt, -⟩ := h.feed.begun hpos
    rw [min_eq_right hread] at hto
    have hdec : z.decoded frame (fed + v.input.length) = content.length := by rw [hto, hz.whole]
    rcases h.feed.drained (hall.trans hdec.symm) with hnil | hold
    · rw [hnil, List.length_nil, Nat.add_zero] at hto
      exact hopen ⟨hto, hall⟩
    · rw [← lastRead_eq hpos hlt hread] at hold
      omega

/-- A frame that is not complete may be read on by another step. -/
theorem Stepping.next (h : Stepping hash prev frame content At unpackedMax limit i fed given k v)
    (hopen : ¬ (fed = frame.length ∧ given = content.length)) {limit' : ℕ}
    (hlt : given < limit') :
    Stepping hash prev frame content At unpackedMax limit' i fed given k v :=
  ⟨⟨h.asked.feed, h.asked.dry, h.asked.last, fun hfed hgiven => absurd ⟨hfed, hgiven⟩ hopen,
    h.asked.givenLe, hlt.le, fun _ => hlt⟩, h.window, h.count, h.within⟩

theorem Window.not_refused_within (h : Window hash prev (content.take given) k v)
    (hgiven : given = content.length) : ¬ RefusedWithin hash prev unpackedMax content := by
  rintro ⟨j, hj, -, hnone⟩
  refine h.not_refused hgiven.le (Nat.lt_succ_iff.1 ?_) hnone
  have hplace := h.given_eq hgiven.le
  have hroom := h.room
  have hw : windowLen = chunkLen + trailerMax := rfl
  by_contra hjk
  have hmul := Nat.mul_le_mul_right chunkLen (Nat.not_lt.1 hjk)
  rw [Nat.succ_mul] at hmul
  omega

variable {budget : UInt64} {budgets : List UInt64}

theorem verifySteps_done {t : Turn z} {r : Except PackErr Verified}
    (hloop : Returns (fun n => stepLoop z hash unpackedMax (stepUntil v.unpacked budget) n v) t)
    (ht : afterLoop hash sign prev t = .done r) :
    Returns (fun n => verifySteps z hash sign unpackedMax prev n (budget :: budgets) v)
      (.done r) :=
  (hloop.map (afterLoop hash sign prev)).bind (by rw [ht]; exact ⟨0, fun _ _ => rfl⟩)

theorem verifySteps_more {v' : Verifying z} {s : Stepped z}
    (hloop : Returns (fun n => stepLoop z hash unpackedMax (stepUntil v.unpacked budget) n v)
      (.more v'))
    (hrest : Returns (fun n => verifySteps z hash sign unpackedMax prev n budgets v') s) :
    Returns (fun n => verifySteps z hash sign unpackedMax prev n (budget :: budgets) v) s :=
  (hloop.map (afterLoop hash sign prev)).bind hrest

/-- Behind `UINT64_MAX` bytes no step does anything. -/
theorem verifySteps_stuck (h : v.unpacked = uintMax) :
    Returns (fun n => verifySteps z hash sign unpackedMax prev n budgets v) (.more v) := by
  induction budgets with
  | nil => exact ⟨0, fun _ _ => rfl⟩
  | cons budget budgets ih =>
    refine verifySteps_more (stepLoop_stop ?_) ih
    rw [stepUntil_eq h.le, h]
    omega

/-- **A step behind the frame's end** that was told of more to come ends inside another
frame. -/
theorem verifySteps_again (hz : z.Unpacks frame content At)
    (h : Feed frame At i frame.length content.length v) (hfull : v.outFull = true)
    (hpart : v.pending.length < windowLen) (hwithin : ¬ passes unpackedMax v.unpacked)
    (hlt : v.unpacked < uintMax) (hpos : 0 < budget.toNat) :
    Returns (fun n => verifySteps z hash sign unpackedMax prev n (budget :: budgets) v)
      (.done (.error .zstd)) := by
  have hlimit : v.unpacked < stepUntil v.unpacked budget := by
    rw [stepUntil_eq hlt.le]
    omega
  obtain ⟨v', hlast, -, -, -, hloop⟩ := stepLoop_again hash hz h hfull hpart hlimit hwithin
  refine verifySteps_done hloop ?_
  rw [afterLoop, verifyFinish, if_pos hlast]

/-- Where a step ends at the end of a frame that is not complete, its own end is what can have
filled the room. -/
theorem endsStep_ended (hopen : z.decoded frame (lastRead frame) < content.length →
    given < content.length) (hlt : content.length < limit) (hle : limit ≤ given + budget.toNat) :
    EndsStep z frame content given (budget :: budgets) ↔ EndsEdge z frame content limit := by
  refine and_congr_left fun hlast => ?_
  have := hopen hlast
  rw [budgetsEnd_cons, or_iff_left hlt.ne, or_iff_left]
  rintro (h₀ | ⟨hfits, -⟩)
  · omega
  · omega

theorem endsStep_next (hopen : z.decoded frame (lastRead frame) < content.length →
    given < content.length) (hle : given + budget.toNat ≤ content.length) :
    EndsStep z frame content given (budget :: budgets) ↔
      EndsStep z frame content (given + budget.toNat) budgets := by
  refine and_congr_left fun hlast => or_congr_right ?_
  have := hopen hlast
  rw [budgetsEnd_cons, Nat.sub_sub, or_iff_right (by omega), and_iff_right (by omega)]

/-- A step that ends with a complete frame has filled its room. -/
theorem Stepping.full
    (h : Stepping hash prev frame content At unpackedMax limit i frame.length limit k v)
    (hall : limit = content.length) :
    v.outFull = true ∧ z.decoded frame (lastRead frame) < content.length := by
  have hfull : v.outFull = true := by
    by_contra hnot
    exact absurd (h.asked.quiet (by simpa using hnot)) (Nat.lt_irrefl _)
  exact ⟨hfull, ((h.asked.ends rfl hall).1 hfull).2⟩

/-- What steps come to, the first of which begins behind `given` bytes: an answer, once they
unpack more than there is. -/
def StepsCome (z : Zstd) (hash : HashOps) (sign : Option SignOps) (unpackedMax : Option ℕ)
    (prev : Bytes32) (frame content : Bytes) (given : ℕ) (budgets : List UInt64)
    (v : Verifying z) : Prop :=
  ∃ s, Returns (fun n => verifySteps z hash sign unpackedMax prev n budgets v) s ∧
    (∀ r, s = .done r → StepsAnswer hash sign unpackedMax prev content
      (EndsStep z frame content given budgets) r) ∧
    (content.length < uintMax → content.length < given + (budgets.map UInt64.toNat).sum →
      ∃ r, s = .done r)

theorem StepsCome.stuck (h : v.unpacked = uintMax) (hle : uintMax ≤ content.length) :
    StepsCome z hash sign unpackedMax prev frame content given budgets v :=
  ⟨_, verifySteps_stuck h, fun _ hr => (nomatch hr), fun hlt _ => absurd hle (Nat.not_le.2 hlt)⟩

theorem StepsCome.done {t : Turn z} {r : Except PackErr Verified}
    (hloop : Returns (fun n => stepLoop z hash unpackedMax (stepUntil v.unpacked budget) n v) t)
    (ht : afterLoop hash sign prev t = .done r)
    (hr : StepsAnswer hash sign unpackedMax prev content
      (EndsStep z frame content given (budget :: budgets)) r) :
    StepsCome z hash sign unpackedMax prev frame content given (budget :: budgets) v := by
  refine ⟨_, verifySteps_done hloop ht, ?_, fun _ _ => ⟨_, rfl⟩⟩
  rintro r ⟨⟩
  exact hr

/-- **A budget that ends with the content's last byte**: the next step, if there is one, asks
zstd for more. -/
theorem StepsCome.again {v' : Verifying z} (hz : z.Unpacks frame content At)
    (hpos : ∀ b ∈ budgets, 0 < b.toNat)
    (hloop : Returns (fun n => stepLoop z hash unpackedMax (stepUntil v.unpacked budget) n v)
      (.more v'))
    (h : Stepping hash prev frame content At unpackedMax limit i frame.length limit k v')
    (hall : limit = content.length) (hsum : limit = given + budget.toNat) (hless : limit < uintMax)
    (hb : 0 < budget.toNat) :
    StepsCome z hash sign unpackedMax prev frame content given (budget :: budgets) v := by
  obtain ⟨hfull, hlast⟩ := h.full hall
  have hfeed := h.asked.feed
  rw [hall] at hfeed
  have hedge : EndsStep z frame content given (budget :: budgets) :=
    ⟨Or.inr (budgetsEnd_cons.2 (Or.inr ⟨by omega, 0, by simp; omega⟩)), hlast⟩
  cases budgets with
  | nil =>
    refine ⟨_, verifySteps_more hloop ⟨0, fun _ _ => rfl⟩, fun _ hr => (nomatch hr),
      fun _ hlong => ?_⟩
    rw [List.map_singleton, List.sum_singleton] at hlong
    omega
  | cons budget' budgets =>
    refine ⟨_, verifySteps_more hloop (verifySteps_again hz hfeed hfull h.window.room
      (h.count ▸ h.within) (h.count ▸ hless) (hpos budget' (List.mem_cons_self ..))), ?_,
      fun _ _ => ⟨_, rfl⟩⟩
    rintro r ⟨⟩
    exact .again (hall ▸ h.within) (h.window.not_refused_within hall) hedge

/-- **Steps, until one is done**, from a frame that is not complete. -/
theorem Stepping.steps (hz : z.Unpacks frame content At) (hpos : ∀ b ∈ budgets, 0 < b.toNat)
    (h : Stepping hash prev frame content At unpackedMax limit i fed given k v)
    (hopen : ¬ (fed = frame.length ∧ given = content.length)) (hmax : given ≤ uintMax) :
    StepsCome z hash sign unpackedMax prev frame content given budgets v := by
  induction budgets generalizing limit i fed given k v with
  | nil =>
    refine ⟨_, ⟨0, fun _ _ => rfl⟩, fun _ hr => (nomatch hr), fun _ hlong => ?_⟩
    have := h.asked.givenLe
    rw [List.map_nil, List.sum_nil] at hlong
    omega
  | cons budget budgets ih =>
    rcases hmax.lt_or_eq with hlt | hstuck
    · have hb := hpos budget (List.mem_cons_self ..)
      have hrest : ∀ b ∈ budgets, 0 < b.toNat := fun b hmem =>
        hpos b (List.mem_cons_of_mem _ hmem)
      have hless := h.asked.unfinished hz hopen
      obtain rfl := h.count
      have huntil := stepUntil_eq hmax budget
      have hbefore : v.unpacked < stepUntil v.unpacked budget := by omega
      obtain ⟨t, hends, hloop⟩ := (h.next hopen hbefore).loop hz
      cases hends with
      | refused hrefused => exact .done hloop rfl (.refused hrefused)
      | passed hpasses hnot => exact .done hloop rfl (.passed hpasses hnot)
      | ended hwithin hwin hlimit hlast =>
        have hnot : ¬ RefusedWithin hash prev unpackedMax content :=
          Window.not_refused_within (by rwa [List.take_length]) rfl
        refine .done hloop rfl ?_
        rw [endsStep_ended hless hlimit (by omega)]
        by_cases hfull : EndsEdge z frame content (stepUntil v.unpacked budget)
        · rw [verifyFinish, if_pos fun h₀ => hlast.1 h₀ hfull]
          exact .again hwithin hnot hfull
        · rw [hwin.finish_at_once (hlast.2 hfull) hwithin]
          exact .atOnce hwithin hnot hfull
      | @more i' fed' k' v' h' =>
        have hgivenLe := h'.asked.givenLe
        rcases Nat.lt_or_ge (stepUntil v.unpacked budget) uintMax with hsmall | hend
        · have hsum : stepUntil v.unpacked budget = v.unpacked + budget.toNat := by omega
          by_cases hdone : fed' = frame.length ∧
              stepUntil v.unpacked budget = content.length
          · obtain ⟨rfl, hall⟩ := hdone
            exact .again hz hrest hloop h' hall hsum hsmall hb
          · obtain ⟨s, hsteps, hanswer, htotal⟩ := ih hrest h' hdone hsmall.le
            rw [hsum] at hanswer htotal hgivenLe
            refine ⟨s, verifySteps_more hloop hsteps, fun r hr => ?_, fun hcount hlong => ?_⟩
            · rw [endsStep_next hless hgivenLe]
              exact hanswer r hr
            · rw [List.map_cons, List.sum_cons, ← Nat.add_assoc] at hlong
              exact htotal hcount hlong
        · -- Behind `UINT64_MAX` bytes no step is done.
          have hfar : v'.unpacked = uintMax := by
            rw [h'.count]
            omega
          exact ⟨_, verifySteps_more hloop (verifySteps_stuck hfar), fun _ hr => (nomatch hr),
            fun hcount _ => by omega⟩
    · exact .stuck (h.count.trans hstuck) (hstuck ▸ h.asked.givenLe)

/-- A check begun, whatever its first step's budget. -/
theorem stepping_begin (hz : z.Unpacks frame content At) (hframe : frame ≠ [])
    (hlimit : 0 < limit) :
    Stepping hash prev frame content At unpackedMax limit 0 0 0 0 (verifyBegin z prev frame) := by
  have hpos := List.length_pos_of_ne_nil hframe
  refine ⟨⟨⟨hz.start, List.nil_prefix, Nat.zero_le _, rfl, by simp [verifyBegin], by omega,
    Nat.zero_le _, fun _ => Or.inl rfl⟩, fun _ _ => hz.none.symm, ?_, ?_, Nat.zero_le _,
    Nat.zero_le _, fun _ => hlimit⟩, ⟨⟨[], rfl, by simp, chainOver_nil hash prev⟩,
    Nat.zero_lt_succ _, rfl, by omega⟩, rfl, ?_⟩
  · simp only [verifyBegin]
    omega
  · omega
  · rintro ⟨m, -, hlt⟩
    exact Nat.not_lt_zero m hlt

/-- **What steps come to**, from a check's beginning. -/
theorem steps_come (hz : z.Unpacks frame content At) (hframe : frame ≠ [])
    (hpos : ∀ b ∈ budgets, 0 < b.toNat) :
    StepsCome z hash sign unpackedMax prev frame content 0 budgets (verifyBegin z prev frame) := by
  have hlen := List.length_pos_of_ne_nil hframe
  exact (stepping_begin hz hframe Nat.one_pos).steps hz hpos (by omega) (Nat.zero_le _)

/-- **When steps answer as the whole check**: the content passes the bound and the hash refuses
no chunk in front of it; or it does not, and the hash refuses a chunk or the content's last
byte does not end a step or fill the window in the frame's last read. -/
def StepsWell (z : Zstd) (hash : HashOps) (unpackedMax : Option ℕ) (prev : Bytes32)
    (frame content : Bytes) (budgets : List UInt64) : Prop :=
  (passes unpackedMax content.length ∧ ¬ RefusedWithin hash prev unpackedMax content) ∨
    (¬ passes unpackedMax content.length ∧
      (RefusedWithin hash prev unpackedMax content ∨ ¬ EndsStep z frame content 0 budgets))

theorem StepsAnswer.at_once_iff {r : Except PackErr Verified}
    (h : StepsAnswer hash sign unpackedMax prev content (EndsStep z frame content 0 budgets) r) :
    r = verifyAtOnce hash sign unpackedMax prev content ↔
      StepsWell z hash unpackedMax prev frame content budgets := by
  unfold StepsWell
  cases h with
  | refused hrefused =>
    rw [or_iff_right fun hboth => hboth.2 hrefused, and_iff_left (Or.inl hrefused)]
    constructor
    · intro hsame hpasses
      rw [verifyAtOnce_passes hpasses] at hsame
      simp at hsame
    · intro hwithin
      exact (verifyAtOnce_unsealed hwithin hrefused.refused.not_sealed).symm
  | passed hpasses hnot =>
    exact ⟨fun _ => Or.inl ⟨hpasses, hnot⟩, fun _ => (verifyAtOnce_passes hpasses).symm⟩
  | again hwithin hnot hedge =>
    refine ⟨fun hsame => absurd hsame.symm verifyAtOnce_ne_zstd, ?_⟩
    rintro (⟨hpasses, -⟩ | ⟨-, hrefused | hclear⟩)
    · exact absurd hpasses hwithin
    · exact absurd hrefused hnot
    · exact absurd hedge hclear
  | atOnce hwithin hnot hclear => exact ⟨fun _ => Or.inr ⟨hwithin, Or.inr hclear⟩, fun _ => rfl⟩

/-- **Steps and the whole check agree** under `StepsWell` and only then, whatever budgets the
steps are given; and they are done once the budgets are more than the content. -/
theorem steps_at_once (hz : z.Unpacks frame content At) (hframe : frame ≠ [])
    (hpos : ∀ b ∈ budgets, 0 < b.toNat) :
    ∃ s, Returns (fun n => verifySteps z hash sign unpackedMax prev n budgets
        (verifyBegin z prev frame)) s ∧
      (∀ r, s = .done r → (r = verifyAtOnce hash sign unpackedMax prev content ↔
        StepsWell z hash unpackedMax prev frame content budgets)) ∧
      (content.length < uintMax → content.length < (budgets.map UInt64.toNat).sum →
        ∃ r, s = .done r) := by
  obtain ⟨s, hsteps, hanswer, htotal⟩ := steps_come hz hframe hpos
  rw [Nat.zero_add] at htotal
  exact ⟨s, hsteps, fun r hr => (hanswer r hr).at_once_iff, htotal⟩

/-! ## Steps of a line -/

/-- A line and its trailer, packed: 165 bytes, sealed, all of them in the frame's only read. -/
theorem packed_line : ∃ content frame x, taggedZstd.compress [content] = some frame ∧
    content.length = 165 ∧ frame ≠ [] ∧ lastRead frame = 0 ∧
    verifyAtOnce tailHash none none 0 content = .ok x ∧ ¬ FoldRefused tailHash 0 content ∧
    ∃ At, taggedZstd.Unpacks frame content At := by
  obtain ⟨h, hchain⟩ : ∃ h, chainOver tailHash 0 (ascii "a\n") = some h :=
    ⟨_, chainOver_of_le (by decide) (by decide)⟩
  have hsig : signLine none (trailerBase 0 h none) = some none := rfl
  have hlen : (ascii "a\n" ++ trailerLine 0 h none none).length = 165 :=
    (length_trailerLine hsig).trans (by decide)
  obtain ⟨body, hsealed⟩ := (sealed_line_iff none none hchain 0 _).2
    ⟨Or.inr (by decide), rfl, rfl⟩
  obtain ⟨At, hunpacks⟩ := taggedZstd_lawful [ascii "a\n" ++ trailerLine 0 h none none] _ rfl
  rw [List.flatten_singleton] at hunpacks
  have hframe := length_taggedFrame (ascii "a\n" ++ trailerLine 0 h none none)
  rw [hlen] at hframe
  refine ⟨_, _, _, rfl, hlen, ?_, ?_, verifyAtOnce_sealed (not_passes_none _) hsealed, ?_, At,
    hunpacks⟩
  · rw [Ne, ← List.length_eq_zero_iff, List.flatten_singleton, hframe]
    decide
  · rw [lastRead, List.flatten_singleton, hframe]
    rfl
  · exact fun hrefused => hrefused.not_sealed _ _ hsealed

/-- Two steps of a line, the second past its end. -/
theorem steps_at_once_line : ∃ content frame x, taggedZstd.compress [content] = some frame ∧
    verifyAtOnce tailHash none none 0 content = .ok x ∧
    Returns (fun n => verifySteps taggedZstd tailHash none none 0 n [100, 100]
      (verifyBegin taggedZstd 0 frame)) (.done (.ok x)) := by
  obtain ⟨content, frame, x, hpacked, hlen, hframe, -, honce, -, At, hz⟩ := packed_line
  have hpos : ∀ b ∈ ([100, 100] : List UInt64), 0 < b.toNat := by simp
  obtain ⟨s, hsteps, hanswer, htotal⟩ := steps_at_once hz hframe hpos
  obtain ⟨r, rfl⟩ := htotal (by rw [hlen]; decide) (by rw [hlen]; decide)
  have hwell : StepsWell taggedZstd tailHash none 0 frame content [100, 100] := by
    refine Or.inr ⟨not_passes_none _, Or.inr ?_⟩
    rintro ⟨hfull | hend, -⟩
    · rw [hlen] at hfull
      exact absurd hfull.1 (by decide)
    · rw [hlen, budgetsEnd_cons, budgetsEnd_cons] at hend
      rcases hend with h₀ | ⟨-, h₀ | ⟨hle, -⟩⟩
      · exact absurd h₀ (by decide)
      · exact absurd h₀ (by decide)
      · exact absurd hle (by decide)
  obtain rfl := ((hanswer r rfl).2 hwell).trans honce
  exact ⟨content, frame, x, hpacked, honce, hsteps⟩

/-- **A budget that ends with the line**: the whole check answers OK, and the steps ZSTD. -/
theorem steps_apart : ∃ content frame x, taggedZstd.compress [content] = some frame ∧
    verifyAtOnce tailHash none none 0 content = .ok x ∧
    Returns (fun n => verifySteps taggedZstd tailHash none none 0 n [165, 1]
      (verifyBegin taggedZstd 0 frame)) (.done (.error .zstd)) := by
  obtain ⟨content, frame, x, hpacked, hlen, hframe, hread, honce, hclear, At, hz⟩ := packed_line
  have hpos : ∀ b ∈ ([165, 1] : List UInt64), 0 < b.toNat := by simp
  have hcome : StepsCome taggedZstd tailHash none none 0 frame content 0 [165, 1] _ :=
    steps_come hz hframe hpos
  obtain ⟨s, hsteps, hanswer, htotal⟩ := hcome
  obtain ⟨r, rfl⟩ := htotal (by rw [hlen]; decide) (by rw [hlen]; decide)
  have hedge : EndsStep taggedZstd frame content 0 [165, 1] := by
    refine ⟨Or.inr ⟨1, hlen.symm⟩, ?_⟩
    rw [hread, hz.none, hlen]
    decide
  refine ⟨content, frame, x, hpacked, honce, ?_⟩
  cases hanswer r rfl with
  | refused hrefused => exact absurd hrefused.refused hclear
  | passed hpasses => exact absurd hpasses (not_passes_none _)
  | again => exact hsteps
  | atOnce _ _ hnot => exact absurd hedge hnot

end Log
end Fuzznet
