/-
# A transfer from several peers

`spool/transfer.c`: the ranges asked for and not yet answered, one to a slot, and the window of
how many may be.  `fzn_transfer_next_want` plans from a leaf on and takes the first range planned
that meets no live assignment.

`run_sane` is what holds in every run: the live assignments are canonical spans apart from each
other, `in_flight` is their number, the window is between one and the slots, and where the window
is open a slot is free.
-/

import Fuzznet.Lib.Runs
import Fuzznet.Lib.Slots
import Fuzznet.Spool.Plan

namespace Fuzznet
namespace Spool

open Wire Lib Blob

section

/-- `fzn_transfer_err_t` but for `FZN_TRANSFER_OK`. -/
inductive TransferErr
  | malformed
  | none
  | full
  | unknown
  deriving DecidableEq, Repr

/-- `FZN_TRANSFER_MAX_ASSIGNS`. -/
def maxAssigns : ℕ := 64

/-- `CANDIDATES`. -/
def candidates : ℕ := maxAssigns + 1

/-- `fzn_transfer_assign_t`. -/
structure Assign where
  first : ℕ
  count : ℕ
  deadline : ℕ
  peer : ℕ
  live : Bool
  deriving DecidableEq, Repr

/-- `fzn_transfer_t`; its `cap` is the length of `assigns`. -/
structure Transfer where
  spool : SpoolState
  assigns : List Assign
  inFlight : ℕ
  window : ℕ
  successes : ℕ

/-- `fzn_transfer_open`. -/
def transferOpen (spool : SpoolState) (cap : ℕ) : Except TransferErr Transfer :=
  if cap = 0 ∨ maxAssigns < cap then .error .malformed
  else if spool.leaves = 0 then .error .malformed
  else .ok ⟨spool, List.replicate cap ⟨0, 0, 0, 0, false⟩, 0, 1, 0⟩

/-- `overlaps`. -/
def overlaps (aFirst aCount bFirst bCount : ℕ) : Bool :=
  decide (aFirst < bFirst + bCount) && decide (bFirst < aFirst + aCount)

/-- `is_pending`. -/
def isPending (assigns : List Assign) (first count : ℕ) : Bool :=
  assigns.any fun slot => slot.live && overlaps first count slot.first slot.count

/-- `find_slot`. -/
def findSlot (assigns : List Assign) (peer first count : ℕ) : ℕ :=
  assigns.findIdx fun slot =>
    slot.live && slot.peer == peer && slot.first == first && slot.count == count

/-- The search for a slot that is not live. -/
def freeSlot (assigns : List Assign) : ℕ := assigns.findIdx fun slot => !slot.live

/-- `on_success`. -/
def onSuccess (t : Transfer) : Transfer :=
  if t.successes + 1 < t.window then { t with successes := t.successes + 1 }
  else if t.window < t.assigns.length then { t with successes := 0, window := t.window + 1 }
  else { t with successes := 0 }

/-- `on_loss`. -/
def onLoss (t : Transfer) : Transfer :=
  { t with window := if t.window / 2 = 0 then 1 else t.window / 2, successes := 0 }

/-- `fzn_transfer_next_want`. -/
def nextWant (t : Transfer) (peer start maxPerRange deadline : ℕ) :
    Transfer × Except TransferErr Range :=
  if maxPerRange = 0 then (t, .error .malformed)
  else if t.window ≤ t.inFlight then (t, .error .full)
  else
    match planWant t.spool start maxPerRange candidates with
    | .error _ => (t, .error .malformed)
    | .ok plan =>
      if plan.length = 0 then (t, .error .none)
      else
        match plan.find? fun r => !isPending t.assigns r.first r.count with
        | none => (t, .error .none)
        | some r =>
          if freeSlot t.assigns = t.assigns.length then (t, .error .full)
          else
            ({ t with
                assigns := t.assigns.set (freeSlot t.assigns) ⟨r.first, r.count, deadline, peer, true⟩
                inFlight := t.inFlight + 1 },
              .ok r)

/-- `fzn_spool_has`. -/
def has (s : SpoolState) (index : ℕ) : Bool := !decide (s.leaves ≤ index) && bitGet s.present index

/-- An assignment that is done with. -/
def dropSlot (t : Transfer) (slot : ℕ) : Transfer :=
  match t.assigns[slot]? with
  | none => t
  | some a =>
    { t with assigns := t.assigns.set slot { a with live := false }, inFlight := t.inFlight - 1 }

/-- `fzn_transfer_delivered`. -/
def delivered (t : Transfer) (peer first count : ℕ) : Transfer × Except TransferErr Unit :=
  let slot := findSlot t.assigns peer first count
  if slot = t.assigns.length then (t, .error .unknown)
  else if (List.range count).all (fun i => has t.spool (first + i)) = false then (t, .error .unknown)
  else (onSuccess (dropSlot t slot), .ok ())

/-- `fzn_transfer_failed`. -/
def failed (t : Transfer) (peer first count : ℕ) : Transfer × Except TransferErr Unit :=
  let slot := findSlot t.assigns peer first count
  if slot = t.assigns.length then (t, .error .unknown)
  else (onLoss (dropSlot t slot), .ok ())

/-- An assignment that `fzn_transfer_expire` drops. -/
def Assign.expired (now : ℕ) (slot : Assign) : Bool := slot.live && decide (slot.deadline ≤ now)

/-- A slot behind `fzn_transfer_expire`. -/
def Assign.tick (now : ℕ) (slot : Assign) : Assign :=
  if slot.expired now then { slot with live := false } else slot

/-- `fzn_transfer_expire`: how many it dropped. -/
def expire (t : Transfer) (now : ℕ) : Transfer × ℕ :=
  let dropped := t.assigns.countP (Assign.expired now)
  let t' := { t with
    assigns := t.assigns.map (Assign.tick now)
    inFlight := t.inFlight - dropped }
  (if 0 < dropped then onLoss t' else t', dropped)

/-- What happens to a transfer and its spool. -/
inductive TransferEvent
  | want (peer start deadline : ℕ)
  | delivered (peer first count : ℕ)
  | failed (peer first count : ℕ)
  | expire (now : ℕ)
  | placed (index : ℕ)
  | forgot (first count : ℕ)
  deriving DecidableEq, Repr

/-- One event, with one bound on what is asked for at a time. -/
def transferStep (maxPerRange : ℕ) (t : Transfer) : TransferEvent → Transfer
  | .want peer start deadline => (nextWant t peer start maxPerRange deadline).1
  | .delivered peer first count => (delivered t peer first count).1
  | .failed peer first count => (failed t peer first count).1
  | .expire now => (expire t now).1
  | .placed index =>
    if t.spool.leaves ≤ index ∨ bitGet t.spool.present index then t
    else { t with spool := mark t.spool index }
  | .forgot first count => { t with spool := (forget t.spool first count).1 }

/-- A run of events. -/
def transferRun (maxPerRange : ℕ) (t : Transfer) (events : List TransferEvent) : Transfer :=
  events.foldl (transferStep maxPerRange) t

/-! ## What holds in every run -/

/-- What holds of a transfer over a blob of `leaves` leaves, with `cap` slots. -/
structure Sane (leaves cap : ℕ) (t : Transfer) : Prop where
  blob : t.spool.leaves = leaves
  slots : t.assigns.length = cap
  canonical : ∀ a ∈ t.assigns, a.live = true → spanIsCanonical leaves a.first a.count = true
  apart : ∀ (i j : ℕ) (a b : Assign), t.assigns[i]? = some a → t.assigns[j]? = some b → i ≠ j →
    a.live = true → b.live = true → overlaps a.first a.count b.first b.count = false
  counted : t.inFlight = t.assigns.countP Assign.live
  window : 1 ≤ t.window ∧ t.window ≤ cap

variable {leaves cap maxPerRange : ℕ} {t t' : Transfer}

theorem overlaps_comm (a b c d : ℕ) : overlaps a b c d = overlaps c d a b := Bool.and_comm _ _

/-- **Where the window is open a slot is free.** -/
theorem Sane.freeSlot_lt (h : Sane leaves cap t) (hopen : t.inFlight < t.window) :
    freeSlot t.assigns < t.assigns.length := by
  refine findIdx_lt_of_countP_lt (p := Assign.live) ?_
  have := h.window.2
  rw [← h.counted, h.slots]
  omega

/-- Fewer assignments are live, and the window is one it may be. -/
theorem Sane.fewer (h : Sane leaves cap t) (hleaves : t'.spool.leaves = t.spool.leaves)
    (hslots : t'.assigns.length = t.assigns.length)
    (hlive : ∀ (i : ℕ) a, t'.assigns[i]? = some a → a.live = true → t.assigns[i]? = some a)
    (hcount : t'.inFlight = t'.assigns.countP Assign.live)
    (hwindow : 1 ≤ t'.window ∧ t'.window ≤ cap) : Sane leaves cap t' where
  blob := hleaves.trans h.blob
  slots := hslots.trans h.slots
  canonical a ha hal := by
    obtain ⟨i, hi⟩ := List.mem_iff_getElem?.1 ha
    exact h.canonical a (List.mem_of_getElem? (hlive i a hi hal)) hal
  apart i j a b hi hj hne hal hbl := h.apart i j a b (hlive i a hi hal) (hlive j b hj hbl) hne hal hbl
  counted := hcount
  window := hwindow

theorem Sane.onSuccess (h : Sane leaves cap t) : Sane leaves cap (onSuccess t) := by
  have hwindow := h.window
  unfold Spool.onSuccess
  split
  next => exact { h with }
  next =>
    split
    next hroom =>
      rw [h.slots] at hroom
      exact { h with window := ⟨Nat.le_add_left 1 _, hroom⟩ }
    next => exact { h with }

theorem Sane.onLoss (h : Sane leaves cap t) : Sane leaves cap (onLoss t) := by
  have hwindow := h.window
  refine { h with window := ?_ }
  show 1 ≤ (if t.window / 2 = 0 then 1 else t.window / 2) ∧
    (if t.window / 2 = 0 then 1 else t.window / 2) ≤ cap
  split <;> omega

theorem Sane.dropSlot (h : Sane leaves cap t) {slot : ℕ} {a : Assign}
    (ha : t.assigns[slot]? = some a) (hlive : a.live = true) :
    Sane leaves cap (dropSlot t slot) := by
  unfold Spool.dropSlot
  rw [ha]
  refine h.fewer rfl List.length_set (fun i b hb hbl => ?_) ?_ h.window
  · rw [List.getElem?_set] at hb
    split at hb
    next heq =>
      subst heq
      split at hb
      next => obtain rfl := Option.some.inj hb; cases hbl
      next => cases hb
    next => exact hb
  · have hcount := countP_set_slot ha { a with live := false } Assign.live
    rw [if_pos hlive, if_neg Bool.false_ne_true] at hcount
    show t.inFlight - 1 = (t.assigns.set slot { a with live := false }).countP Assign.live
    rw [h.counted]
    omega

theorem exists_of_findSlot {assigns : List Assign} {peer first count : ℕ}
    (hfound : findSlot assigns peer first count ≠ assigns.length) :
    ∃ a, assigns[findSlot assigns peer first count]? = some a ∧ a.live = true := by
  obtain ⟨a, ha, hmatch⟩ := exists_of_findIdx hfound
  simp only [Bool.and_eq_true] at hmatch
  exact ⟨a, ha, hmatch.1.1.1⟩

/-- What is live is dropped or stays live. -/
theorem countP_tick (assigns : List Assign) (now : ℕ) : assigns.countP Assign.live =
    assigns.countP (Assign.expired now) + (assigns.map (Assign.tick now)).countP Assign.live := by
  induction assigns with
  | nil => rfl
  | cons a rest ih =>
    rw [List.map_cons, List.countP_cons, List.countP_cons, List.countP_cons, ih, Assign.tick]
    by_cases hexpired : a.expired now = true
    · have hlive : a.live = true := (Bool.and_eq_true_iff.1 hexpired).1
      rw [if_pos hexpired, if_pos hlive, if_pos hexpired, if_neg Bool.false_ne_true]
      omega
    · rw [if_neg hexpired, if_neg hexpired]
      omega

theorem Sane.expire (h : Sane leaves cap t) (now : ℕ) : Sane leaves cap (expire t now).1 := by
  have hfewer : Sane leaves cap { t with
      assigns := t.assigns.map (Assign.tick now)
      inFlight := t.inFlight - t.assigns.countP (Assign.expired now) } := by
    refine h.fewer rfl (List.length_map _) (fun i b hb hbl => ?_) ?_ h.window
    · rw [List.getElem?_map] at hb
      obtain ⟨a, ha, rfl⟩ := Option.map_eq_some_iff.1 hb
      unfold Assign.tick at hbl ⊢
      by_cases hexpired : a.expired now = true
      · rw [if_pos hexpired] at hbl
        cases hbl
      · rw [if_neg hexpired]
        exact ha
    · have hcount := countP_tick t.assigns now
      show t.inFlight - t.assigns.countP (Assign.expired now) =
        (t.assigns.map (Assign.tick now)).countP Assign.live
      rw [h.counted]
      omega
  unfold Spool.expire
  dsimp only
  split
  next => exact hfewer.onLoss
  next => exact hfewer

/-- **A free slot taken** by a canonical span that meets no live assignment. -/
theorem Sane.assign (h : Sane leaves cap t) (hopen : t.inFlight < t.window) {new : Assign}
    (hlive : new.live = true) (hspan : spanIsCanonical leaves new.first new.count = true)
    (hno : ∀ a ∈ t.assigns, a.live = true →
      overlaps new.first new.count a.first a.count = false) :
    Sane leaves cap { t with
      assigns := t.assigns.set (freeSlot t.assigns) new
      inFlight := t.inFlight + 1 } := by
  have hlt := h.freeSlot_lt hopen
  obtain ⟨old, hget, hfree⟩ : ∃ old, t.assigns[freeSlot t.assigns]? = some old ∧
      (!old.live) = true := exists_of_findIdx hlt.ne
  have hslot : ∀ (i : ℕ) a, (t.assigns.set (freeSlot t.assigns) new)[i]? = some a →
      i = freeSlot t.assigns ∧ a = new ∨ i ≠ freeSlot t.assigns ∧ t.assigns[i]? = some a := by
    intro i a hi
    rw [List.getElem?_set] at hi
    split at hi
    next heq => exact .inl ⟨heq.symm, (Option.some.inj hi).symm⟩
    next hne => exact .inr ⟨Ne.symm hne, hi⟩
  refine ⟨h.blob, List.length_set.trans h.slots, fun a ha hal => ?_,
    fun i j a b hi hj hne hal hbl => ?_, ?_, h.window⟩
  · obtain ⟨i, hi⟩ := List.mem_iff_getElem?.1 ha
    rcases hslot i a hi with ⟨-, rfl⟩ | ⟨-, hi⟩
    · exact hspan
    · exact h.canonical a (List.mem_of_getElem? hi) hal
  · rcases hslot i a hi with ⟨hi', rfl⟩ | ⟨-, hold⟩ <;>
      rcases hslot j b hj with ⟨hj', rfl⟩ | ⟨-, hold'⟩
    · exact absurd (hi'.trans hj'.symm) hne
    · exact hno b (List.mem_of_getElem? hold') hbl
    · rw [overlaps_comm]
      exact hno a (List.mem_of_getElem? hold) hal
    · exact h.apart i j a b hold hold' hne hal hbl
  · have hcount := countP_set_slot hget new Assign.live
    rw [Bool.not_eq_true'] at hfree
    rw [if_pos hlive, hfree, if_neg Bool.false_ne_true] at hcount
    show t.inFlight + 1 = _
    rw [h.counted]
    exact hcount.symm

/-- What `fzn_transfer_next_want` does. -/
inductive WantCase (t : Transfer) (peer start maxPerRange deadline : ℕ) :
    Transfer × Except TransferErr Range → Prop
  | refused (err : TransferErr) (hne : err ≠ .none) :
      WantCase t peer start maxPerRange deadline (t, .error err)
  | waits (hopen : t.inFlight < t.window) {plan : List Range}
      (hplan : planWant t.spool start maxPerRange candidates = .ok plan)
      (hall : ∀ r ∈ plan, isPending t.assigns r.first r.count = true) :
      WantCase t peer start maxPerRange deadline (t, .error .none)
  | answers (hopen : t.inFlight < t.window) {plan : List Range}
      (hplan : planWant t.spool start maxPerRange candidates = .ok plan) {r : Range} (hr : r ∈ plan)
      (hfree : isPending t.assigns r.first r.count = false) :
      WantCase t peer start maxPerRange deadline ({ t with
        assigns := t.assigns.set (freeSlot t.assigns) ⟨r.first, r.count, deadline, peer, true⟩
        inFlight := t.inFlight + 1 }, .ok r)

theorem nextWant_cases (h : Sane leaves cap t) (peer start maxPerRange deadline : ℕ) :
    WantCase t peer start maxPerRange deadline (nextWant t peer start maxPerRange deadline) := by
  unfold nextWant
  split
  next => exact .refused _ nofun
  next =>
    split
    next => exact .refused _ nofun
    next hopen =>
      rw [not_le] at hopen
      split
      next => exact .refused _ nofun
      next plan hplan =>
        split
        next hnil =>
          obtain rfl := List.length_eq_zero_iff.1 hnil
          exact .waits hopen hplan fun r hr => absurd hr List.not_mem_nil
        next =>
          split
          next hfind =>
            exact .waits hopen hplan fun r hr => by simpa using List.find?_eq_none.1 hfind r hr
          next r hfind =>
            rw [if_neg (h.freeSlot_lt hopen).ne]
            exact .answers hopen hplan (List.mem_of_find?_eq_some hfind)
              (by simpa using List.find?_some hfind)

/-- **What is handed out** is a canonical span that meets no live assignment. -/
theorem Sane.nextWant (h : Sane leaves cap t) (hmax : leaves ≤ maxLeaves) (hsome : 0 < leaves)
    (peer start deadline : ℕ) :
    Sane leaves cap (nextWant t peer start maxPerRange deadline).1 := by
  have hcase := nextWant_cases h peer start maxPerRange deadline
  generalize Spool.nextWant t peer start maxPerRange deadline = r at hcase ⊢
  cases hcase with
  | refused _ _ => exact h
  | waits _ _ _ => exact h
  | answers hopen hplan hr hfree =>
    have hpart := ((planWant_spec (by rw [h.blob]; exact hmax) hplan).1 _ hr).1
    rw [h.blob] at hpart
    refine h.assign hopen rfl (spanIsCanonical_of_part hpart hsome hmax) fun a ha hlive => ?_
    rw [isPending, List.any_eq_false] at hfree
    simpa [hlive] using hfree a ha

theorem leaves_forgetFrom (s : SpoolState) (index count : ℕ) :
    (forgetFrom s index count).1.leaves = s.leaves := by
  induction count generalizing s index with
  | zero => rfl
  | succ count ih =>
    rw [forgetFrom]
    split
    next => exact ih s (index + 1)
    next => exact ih (unmark s index) (index + 1)

theorem leaves_forget (s : SpoolState) (first count : ℕ) :
    (forget s first count).1.leaves = s.leaves := by
  unfold forget
  split
  next => rfl
  next => exact leaves_forgetFrom s first count

/-- **An event** keeps a transfer sane. -/
theorem Sane.step (h : Sane leaves cap t) (hmax : leaves ≤ maxLeaves) (hsome : 0 < leaves)
    (e : TransferEvent) : Sane leaves cap (transferStep maxPerRange t e) := by
  cases e with
  | want peer start deadline => exact h.nextWant hmax hsome peer start deadline
  | delivered peer first count =>
    rw [transferStep, delivered]
    split
    next => exact h
    next hfound =>
      obtain ⟨a, ha, hlive⟩ := exists_of_findSlot hfound
      split
      next => exact h
      next => exact (h.dropSlot ha hlive).onSuccess
  | failed peer first count =>
    rw [transferStep, failed]
    split
    next => exact h
    next hfound =>
      obtain ⟨a, ha, hlive⟩ := exists_of_findSlot hfound
      exact (h.dropSlot ha hlive).onLoss
  | expire now => exact h.expire now
  | placed index =>
    rw [transferStep]
    split
    next => exact h
    next => exact { h with }
  | forgot first count =>
    exact { h with blob := (leaves_forget _ _ _).trans h.blob }

theorem sane_open {spool : SpoolState} (hopen : transferOpen spool cap = .ok t) :
    Sane spool.leaves cap t ∧ 0 < spool.leaves := by
  rw [transferOpen] at hopen
  obtain ⟨hcap, hopen⟩ := past_check hopen nofun
  obtain ⟨hleaves, hopen⟩ := past_check hopen nofun
  obtain rfl := Except.ok.inj hopen
  have hdead : ∀ a ∈ List.replicate cap (⟨0, 0, 0, 0, false⟩ : Assign), a.live = false := by
    intro a ha
    rw [List.eq_of_mem_replicate ha]
  refine ⟨⟨rfl, List.length_replicate, fun a ha hal => ?_, fun i j a b hi hj hne hal hbl => ?_,
    ?_, ⟨Nat.le_refl 1, show 1 ≤ cap by omega⟩⟩, Nat.pos_of_ne_zero hleaves⟩
  · rw [hdead a ha] at hal
    cases hal
  · rw [hdead a (List.mem_of_getElem? hi)] at hal
    cases hal
  · show 0 = _
    rw [eq_comm, List.countP_eq_zero]
    intro a ha
    rw [hdead a ha]
    exact Bool.false_ne_true

/-- **Every run is sane.** -/
theorem run_sane {spool : SpoolState} (hmax : spool.leaves ≤ maxLeaves)
    (hopen : transferOpen spool cap = .ok t) (maxPerRange : ℕ) (events : List TransferEvent) :
    Sane spool.leaves cap (transferRun maxPerRange t events) :=
  foldl_induction (fun _ e _ h => h.step hmax (sane_open hopen).2 e) (sane_open hopen).1

end

/-! ## When a transfer waits

A transfer that answers `FZN_TRANSFER_NONE` should have nothing to hand out: every missing leaf
lies in a live assignment.  The candidates are cut from the bitmap and the leaf asked from, as
they are now, and the live assignments from what they were, so a candidate may meet an assignment
that covers a part of it: `CANDIDATES` counts on each live slot ruling out one candidate, with one
bound on the ranges, and the cuts move with the leaf asked from (`waits_beside_a_free_leaf`).

A plan cut off at its places has one range more than there are slots: it leaves a free one if each
live assignment meets one of them at most (`exists_unmet`).  A plan with places left names every
missing leaf: the transfer waits right if each live assignment covers the ranges it meets. -/

/-- A leaf that the spool has not. -/
def Missing (t : Transfer) (i : ℕ) : Prop :=
  i < t.spool.leaves ∧ bitGet t.spool.present i = false

/-- A leaf that a live assignment is for. -/
def Assigned (t : Transfer) (i : ℕ) : Prop :=
  ∃ a ∈ t.assigns, a.live = true ∧ a.first ≤ i ∧ i < a.first + a.count

instance (t : Transfer) (i : ℕ) : Decidable (Missing t i) := inferInstanceAs (Decidable (_ ∧ _))

instance (t : Transfer) (i : ℕ) : Decidable (Assigned t i) :=
  inferInstanceAs (Decidable (∃ a ∈ t.assigns, _))

/-- What a transfer keeps in a run. -/
structure TransferKeeps (maxPerRange cap : ℕ) (t : Transfer) (events : List TransferEvent) :
    Prop where
  sane : ∀ pre, pre <+: events → Sane t.spool.leaves cap (transferRun maxPerRange t pre)
  free : ∀ pre, pre <+: events →
    (transferRun maxPerRange t pre).inFlight < (transferRun maxPerRange t pre).window →
      freeSlot (transferRun maxPerRange t pre).assigns < (transferRun maxPerRange t pre).assigns.length
  delivered : ∀ pre peer first count, pre ++ [.delivered peer first count] <+: events →
    (delivered (transferRun maxPerRange t pre) peer first count).2 = .ok () →
      ∀ i, first ≤ i → i < first + count →
        i < t.spool.leaves ∧ bitGet (transferRun maxPerRange t pre).spool.present i = true

/-- What a transfer promises of a run. -/
structure TransferWorks (maxPerRange cap : ℕ) (t : Transfer) (events : List TransferEvent) : Prop
    extends TransferKeeps maxPerRange cap t events where
  waits : ∀ pre peer start deadline, pre ++ [.want peer start deadline] <+: events →
    (nextWant (transferRun maxPerRange t pre) peer start maxPerRange deadline).2 = .error .none →
      ∀ i, Missing (transferRun maxPerRange t pre) i → Assigned (transferRun maxPerRange t pre) i

/-- An assignment meets a range. -/
def Assign.meets (a : Assign) (r : Range) : Bool := overlaps r.first r.count a.first a.count

/-- An assignment covers a range. -/
def Assign.Covers (a : Assign) (r : Range) : Prop :=
  a.first ≤ r.first ∧ r.first + r.count ≤ a.first + a.count

/-- How the live assignments lie to the ranges planned: where the plan is cut off each meets one of
them at most, and where it has places left each covers those it meets. -/
structure Aligned (assigns : List Assign) (plan : List Range) : Prop where
  one : candidates ≤ plan.length → ∀ a ∈ assigns, a.live = true → ∀ r ∈ plan, ∀ r' ∈ plan,
    a.meets r = true → a.meets r' = true → r = r'
  covers : plan.length < candidates → ∀ a ∈ assigns, a.live = true → ∀ r ∈ plan,
    a.meets r = true → a.Covers r

/-- A plan from a leaf on, where the window is open, lies so. -/
def AlignedAt (maxPerRange start : ℕ) (t : Transfer) : Prop :=
  t.inFlight < t.window → ∀ plan, planWant t.spool start maxPerRange candidates = .ok plan →
    Aligned t.assigns plan

instance (a : Assign) (r : Range) : Decidable (a.Covers r) := inferInstanceAs (Decidable (_ ∧ _))

variable {maxPerRange cap : ℕ} {t : Transfer} {events : List TransferEvent}

theorem alignedAt_of_plan {start : ℕ} (plan : List Range)
    (hplan : planWant t.spool start maxPerRange candidates = .ok plan)
    (h : Aligned t.assigns plan) : AlignedAt maxPerRange start t := by
  intro _ plan' hplan'
  rw [hplan] at hplan'
  exact Except.ok.inj hplan' ▸ h

theorem isPending_eq_true_iff {assigns : List Assign} {r : Range} :
    isPending assigns r.first r.count = true ↔ ∃ a ∈ assigns, a.live = true ∧ a.meets r = true := by
  rw [isPending, List.any_eq_true]
  exact exists_congr fun a => and_congr_right fun _ => Bool.and_eq_true_iff

/-- **A plan that is cut off has a free range**: it has one more than there are slots. -/
theorem exists_free (h : Sane t.spool.leaves cap t) (hmax : t.spool.leaves ≤ maxLeaves)
    (hcap : cap ≤ maxAssigns) (hopen : t.inFlight < t.window) {start : ℕ} {plan : List Range}
    (hplan : planWant t.spool start maxPerRange candidates = .ok plan)
    (haligned : Aligned t.assigns plan) (hcut : candidates ≤ plan.length) :
    ∃ r ∈ plan, isPending t.assigns r.first r.count = false := by
  have hfew : t.assigns.countP Assign.live < plan.length := by
    have hwindow := h.window.2
    rw [← h.counted]
    unfold candidates at hcut
    omega
  obtain ⟨r, hr, hunmet⟩ := exists_unmet Assign.meets (nodup_of_planWant hmax hplan)
    (haligned.one hcut) hfew
  refine ⟨r, hr, ?_⟩
  rw [← Bool.not_eq_true, isPending_eq_true_iff]
  rintro ⟨a, ha, hlive, hmeets⟩
  rw [hunmet a ha hlive] at hmeets
  cases hmeets

/-- **A step waits right** where the live assignments lie so. -/
theorem waits_of_aligned (h : Sane t.spool.leaves cap t) (hmax : t.spool.leaves ≤ maxLeaves)
    (hcap : cap ≤ maxAssigns) {peer start deadline : ℕ} (haligned : AlignedAt maxPerRange start t)
    (hnone : (nextWant t peer start maxPerRange deadline).2 = .error .none) :
    ∀ i, Missing t i → Assigned t i := by
  have hcase := nextWant_cases h peer start maxPerRange deadline
  generalize nextWant t peer start maxPerRange deadline = r at hcase hnone
  cases hcase with
  | refused err hne => exact absurd (Except.error.inj hnone) hne
  | answers _ _ _ _ => cases hnone
  | @waits hopen plan hplan hpending =>
    replace haligned := haligned hopen plan hplan
    by_cases hcut : candidates ≤ plan.length
    · obtain ⟨r, hr, hfree⟩ := exists_free h hmax hcap hopen hplan haligned hcut
      rw [hpending r hr] at hfree
      cases hfree
    · rw [not_le] at hcut
      intro i hi
      obtain ⟨r, hr, hlo, hhi⟩ := (planWant_spec hmax hplan).2 hcut i hi.1 hi.2
      obtain ⟨a, ha, hlive, hmeets⟩ := isPending_eq_true_iff.1 (hpending r hr)
      obtain ⟨hfirst, hlast⟩ := haligned.covers hcut a ha hlive r hr hmeets
      exact ⟨a, ha, hlive, hfirst.trans hlo, hhi.trans_le hlast⟩

theorem delivered_ok {peer first count i : ℕ} (hok : (delivered t peer first count).2 = .ok ())
    (hlo : first ≤ i) (hhi : i < first + count) : has t.spool i = true := by
  unfold delivered at hok
  dsimp only at hok
  split at hok
  next => cases hok
  next =>
    split at hok
    next => cases hok
    next hall =>
      rw [Bool.not_eq_false, List.all_eq_true] at hall
      have hthere := hall (i - first) (List.mem_range.2 (by omega))
      rwa [Nat.add_sub_cancel' hlo] at hthere

theorem cap_le_of_open {spool : SpoolState} (hopen : transferOpen spool cap = .ok t) :
    cap ≤ maxAssigns := by
  rw [transferOpen] at hopen
  obtain ⟨hcap, hopen⟩ := past_check hopen nofun
  omega

/-- **A transfer keeps what it promises.**  In every run all but the waiting; and it waits right in
a run at each of whose `next_want` the live assignments lie to the plan as they should. -/
theorem transfer_works {spool : SpoolState} (hmax : spool.leaves ≤ spoolMaxLeaves)
    (hopen : transferOpen spool cap = .ok t) :
    TransferKeeps maxPerRange cap t events ∧
      ((∀ pre peer start deadline, pre ++ [.want peer start deadline] <+: events →
        AlignedAt maxPerRange start (transferRun maxPerRange t pre)) →
          TransferWorks maxPerRange cap t events) := by
  have hmax' : spool.leaves ≤ maxLeaves := hmax.trans (by decide)
  have hspool : t.spool.leaves = spool.leaves := (sane_open hopen).1.blob
  have hsane : ∀ pre, Sane t.spool.leaves cap (transferRun maxPerRange t pre) := fun pre =>
    hspool ▸ run_sane hmax' hopen maxPerRange pre
  have hself : ∀ pre, Sane (transferRun maxPerRange t pre).spool.leaves cap
      (transferRun maxPerRange t pre) := fun pre => (hsane pre).blob.symm ▸ hsane pre
  have hfew : ∀ pre, (transferRun maxPerRange t pre).spool.leaves ≤ maxLeaves := fun pre => by
    rw [(hsane pre).blob, hspool]
    exact hmax'
  have hkeeps : TransferKeeps maxPerRange cap t events := by
    refine ⟨fun pre _ => hsane pre, fun pre _ => (hsane pre).freeSlot_lt,
      fun pre peer first count _ hok i hlo hhi => ?_⟩
    have hthere := delivered_ok hok hlo hhi
    rw [has, Bool.and_eq_true, (hsane pre).blob] at hthere
    exact ⟨by simpa using hthere.1, hthere.2⟩
  refine ⟨hkeeps, fun haligned => { hkeeps with waits := fun pre peer start deadline hpre => ?_ }⟩
  exact waits_of_aligned (hself pre) (hfew pre) (cap_le_of_open hopen)
    (haligned pre peer start deadline hpre)

/-- A spool of four leaves, none there. -/
def fourMissing : SpoolState := ⟨0, 4, 0, [0], fun _ => 0, []⟩

/-- A transfer of it with two slots. -/
def twoSlots : Transfer := ⟨fourMissing, List.replicate 2 ⟨0, 0, 0, 0, false⟩, 0, 1, 0⟩

/-- Two leaves are delivered, the other two asked for; one of those arrives, and a second peer is
asked from the front. -/
def halfArrived : List TransferEvent :=
  [.want 1 0 9, .placed 0, .placed 1, .delivered 1 0 2, .want 1 2 9, .placed 2, .want 2 0 9]

/-- Every run, and one that ends in a wait: the last plan is of the one leaf that is missing, which
the live assignment covers. -/
theorem transfer_works_half_arrived :
    (∀ events, TransferKeeps 2 2 twoSlots events) ∧ TransferWorks 2 2 twoSlots halfArrived ∧
      (nextWant (transferRun 2 twoSlots (halfArrived.take 6)) 2 0 2 9).2 = .error .none := by
  have h := fun events => @transfer_works 2 2 twoSlots events fourMissing (by decide) rfl
  refine ⟨fun events => (h events).1, (h halfArrived).2 ?_, by decide⟩
  refine fun pre peer start deadline hpre => forall_prefix (Q := fun pre e => ∀ peer start deadline,
    e = .want peer start deadline → AlignedAt 2 start (transferRun 2 twoSlots pre)) ?_ pre _ hpre
      peer start deadline rfl
  intro n hn peer start deadline he
  rcases n with - | - | - | - | - | - | - | n
  case succ.succ.succ.succ.succ.succ.succ => exact absurd hn (by simp [halfArrived])
  case zero =>
    obtain ⟨-, rfl, -⟩ := TransferEvent.want.inj he
    exact alignedAt_of_plan [⟨0, 2⟩, ⟨2, 2⟩] (by decide) ⟨by decide, by decide⟩
  case succ.succ.succ.succ.zero =>
    obtain ⟨-, rfl, -⟩ := TransferEvent.want.inj he
    exact alignedAt_of_plan [⟨2, 2⟩] (by decide) ⟨by decide, by decide⟩
  case succ.succ.succ.succ.succ.succ.zero =>
    obtain ⟨-, rfl, -⟩ := TransferEvent.want.inj he
    exact alignedAt_of_plan [⟨3, 1⟩] (by decide) ⟨by decide, by decide⟩
  all_goals cases he

/-- The playhead goes back: two leaves are asked for from leaf 2 on and delivered, and then leaf 1
by itself from leaf 1 on. -/
def playheadBack : List TransferEvent :=
  [.want 1 2 9, .placed 2, .placed 3, .delivered 1 2 2, .want 1 1 9, .want 2 0 9]

/-- **A transfer waits beside a free leaf**: leaf 0 is in no assignment, and the candidate that
has it meets the assignment of leaf 1. -/
theorem waits_beside_a_free_leaf : transferOpen fourMissing 2 = .ok twoSlots ∧
    ¬TransferWorks 2 2 twoSlots playheadBack := by
  refine ⟨rfl, fun h => ?_⟩
  have hassigned := h.waits (playheadBack.take 5) 2 0 9 List.prefix_rfl (by decide) 0
    (by decide)
  exact absurd hassigned (by decide)

end Spool
end Fuzznet
