/-
# Runs of a delta against a store that never refused

What a delta answers is read off its view: a load of at most so many bytes, a listing and a
walk of the live subjects of a slot.  Over a run the view is an ideal map, in which each
write answered took effect in its turn, for as long as no row is given up.

A write refused leaves the view where it gave no row up, and not otherwise: a row may be shed
for one that then does not fit (`write_refused_loses`).
-/

import Fuzznet.Persist.DeltaView

namespace Fuzznet
namespace Persist

open Wire (Bytes Bytes32)

/-! ## What the delta answers -/

section Reads

variable {σ : Type} {o : Store σ} {d : Delta σ}

/-- A load answers the view where it fits, or nothing where it is the store's to answer and
the store's own load answers nothing. -/
theorem deltaLoad_eq (d : Delta σ) (slot : PersistSlot) (k : Option Bytes32) (cap : ℕ) :
    (deltaLoad o.toPersistOps d slot k cap).1 = fitting cap (view o d slot k) ∨
      (deltaLoad o.toPersistOps d slot k cap).1 = none ∧ d.find (slot, k) = none ∧
        (o.load d.base slot k cap).1 = none := by
  unfold deltaLoad
  cases hf : d.find (slot, k) with
  | none =>
    rw [view_of_none hf]
    exact (o.load_fitting d.base slot k cap).imp id fun hnone => ⟨hnone, rfl, hnone⟩
  | some r =>
    left
    rw [view_of_find hf, DeltaRow.says]
    dsimp only
    cases r.gone with
    | true => rfl
    | false =>
      rw [Bool.false_or, if_neg Bool.false_ne_true, fitting_some]
      simp only [decide_eq_true_eq]

theorem mem_live {slot : PersistSlot} {k : Bytes32} : k ∈ d.live slot ↔
    ∃ r ∈ d.age, r.key = (slot, some k) ∧ r.gone = false := by
  rw [Delta.live, List.mem_filterMap]
  constructor
  · rintro ⟨r, hr, hk⟩
    split at hk
    next hlive => exact ⟨r, hr, Prod.ext hlive.1 hk, hlive.2⟩
    next => cases hk
  · rintro ⟨r, hr, hkey, hgone⟩
    obtain ⟨hslot, hk⟩ := Prod.mk.inj hkey
    exact ⟨r, hr, by rw [if_pos ⟨hslot, hgone⟩, hk]⟩

theorem nodup_live (h : d.Tidy) (slot : PersistSlot) : (d.live slot).Nodup := by
  refine (List.pairwise_map.1 h.distinct).filterMap _ ?_
  rintro r r' hne k hk k' hk' rfl
  split at hk
  next hlive =>
    split at hk'
    next hlive' => exact hne (Prod.ext (hlive.1.trans hlive'.1.symm) (hk.trans hk'.symm))
    next => cases hk'
  next => cases hk

theorem view_eq_some_iff (h : d.Tidy) {slot : PersistSlot} {k : Bytes32} :
    (∃ b, view o d slot (some k) = some b) ↔ k ∈ d.live slot ∨
      d.find (slot, some k) = none ∧ ∃ b, o.rows d.base slot (some k) = some b := by
  rw [mem_live]
  cases hf : d.find (slot, some k) with
  | none =>
    rw [view_of_none hf]
    constructor
    · exact fun hb => Or.inr ⟨rfl, hb⟩
    · rintro (⟨r, hr, hkey, -⟩ | ⟨-, hb⟩)
      · exact absurd hkey (h.find_eq_none_iff.1 hf r hr)
      · exact hb
  | some r =>
    rw [view_of_find hf, DeltaRow.says]
    obtain ⟨hr, hkey⟩ := h.find_eq_some_iff.1 hf
    constructor
    · rintro ⟨b, hb⟩
      split at hb
      next => cases hb
      next hlive => exact Or.inl ⟨r, hr, hkey, Bool.eq_false_iff.2 hlive⟩
    · rintro (⟨r', hr', hkey', hgone⟩ | ⟨hno, -⟩)
      · have hsame := h.find_eq_some_iff.2 ⟨hr', hkey'⟩
        rw [hf] at hsame
        obtain rfl := Option.some.inj hsame
        exact ⟨r.bytes, by rw [if_neg (by rw [hgone]; exact Bool.false_ne_true)]⟩
      · cases hno

/-- What `delta_list` adds to a listing: the live subjects it lacks. -/
theorem addListed_spec {max : ℕ} {kept ks listed : List Bytes32} (hkept : kept.Nodup)
    (hlen : kept.length ≤ max) (h : addListed max kept ks = some listed) :
    listed.Nodup ∧ listed.length ≤ max ∧ ∀ k, k ∈ listed ↔ k ∈ kept ∨ k ∈ ks := by
  induction ks generalizing kept with
  | nil =>
    obtain rfl := Option.some.inj h
    exact ⟨hkept, hlen, fun k => (or_iff_left List.not_mem_nil).symm⟩
  | cons a ks ih =>
    unfold addListed at h
    split at h
    next hmem =>
      obtain ⟨hnodup, hmax, hiff⟩ := ih hkept hlen h
      refine ⟨hnodup, hmax, fun k => (hiff k).trans ?_⟩
      rw [List.mem_cons]
      constructor
      · exact fun hk => hk.imp id Or.inr
      · rintro (hk | rfl | hk)
        · exact Or.inl hk
        · exact Or.inl hmem
        · exact Or.inr hk
    next hnew =>
      split at h
      next => cases h
      next hroom =>
        have hkept' : (kept ++ [a]).Nodup :=
          (List.perm_append_singleton a kept).nodup_iff.2 (List.nodup_cons.2 ⟨hnew, hkept⟩)
        have hlen' : (kept ++ [a]).length ≤ max := by
          rw [List.length_append, List.length_singleton]
          omega
        obtain ⟨hnodup, hmax, hiff⟩ := ih hkept' hlen' h
        refine ⟨hnodup, hmax, fun k => (hiff k).trans ?_⟩
        rw [List.mem_append, List.mem_singleton, List.mem_cons, or_assoc]

/-- **A listing is of the live subjects of the view, each once.** -/
theorem deltaList_eq (h : d.Tidy) {slot : PersistSlot} {max : ℕ} {ks : List Bytes32}
    (hks : (deltaList o.toPersistOps d slot max).1 = some ks) :
    Lists (view o d slot) ks ∧ ks.length ≤ max := by
  unfold deltaList at hks
  split at hks
  next => cases hks
  next base s heq =>
    obtain ⟨hlists, hmax⟩ := o.listing_eq (show (o.listing d.base slot max).1 = some base by
      rw [heq])
    obtain ⟨hnodup, hlen, hiff⟩ := addListed_spec (hlists.nodup.filter _)
      ((List.length_filter_le _ _).trans hmax) hks
    refine ⟨⟨hnodup, fun k => ?_⟩, hlen⟩
    rw [hiff, view_eq_some_iff h, List.mem_filter, hlists.mem_iff, or_comm]
    -- a subject the store lists and the delta holds is live here too
    constructor
    · rintro (hlive | ⟨hb, hheld⟩)
      · exact Or.inl hlive
      · cases hf : d.find (slot, some k) with
        | none => exact Or.inr ⟨rfl, hb⟩
        | some r =>
          rw [hf, Option.all_some] at hheld
          obtain ⟨hr, hkey⟩ := h.find_eq_some_iff.1 hf
          exact Or.inl (mem_live.2 ⟨r, hr, hkey, by simpa using hheld⟩)
    · rintro (hlive | ⟨hnone, hb⟩)
      · exact Or.inl hlive
      · exact Or.inr ⟨hb, by rw [hnone, Option.all_none]⟩

/-- **A walk hands out the live subjects of the view, each once.** -/
theorem deltaEach_eq (h : d.Tidy) (slot : PersistSlot) :
    Walked (view o d slot) (deltaEach o.toPersistOps d slot).1 := by
  have hwalk := o.walk_eq d.base slot
  unfold deltaEach
  cases hw : o.walk d.base slot with
  | mk w s =>
    obtain ⟨ks, ended⟩ := w
    rw [hw] at hwalk
    dsimp only
    have hfree : ∀ k ∈ ks.filter fun k => (d.find (slot, some k)).isNone,
        d.find (slot, some k) = none ∧ ∃ b, o.rows d.base slot (some k) = some b := by
      intro k hk
      obtain ⟨hmem, hnone⟩ := List.mem_filter.1 hk
      exact ⟨by simpa using hnone, hwalk.held k hmem⟩
    have hheld : ∀ k ∈ d.live slot, ∃ b, view o d slot (some k) = some b :=
      fun k hk => (view_eq_some_iff h).2 (Or.inl hk)
    have hpart : ∀ k ∈ (if ended then d.live slot else []), k ∈ d.live slot := by
      intro k hk
      split at hk
      · exact hk
      · exact absurd hk List.not_mem_nil
    constructor
    · refine (hwalk.nodup.filter _).append ?_ ?_
      · split
        · exact nodup_live h slot
        · exact List.nodup_nil
      · intro k hk hk'
        obtain ⟨r, hr, hkey, -⟩ := mem_live.1 (hpart k hk')
        exact h.find_eq_none_iff.1 (hfree k hk).1 r hr hkey
    · intro k hk
      rcases List.mem_append.1 hk with hk | hk
      · exact (view_eq_some_iff h).2 (Or.inr (hfree k hk))
      · exact hheld k (hpart k hk)
    · rintro (rfl : ended = true) k b hb
      rw [List.mem_append, if_pos rfl]
      rcases (view_eq_some_iff h).1 ⟨b, hb⟩ with hlive | ⟨hnone, b', hb'⟩
      · exact Or.inr hlive
      · exact Or.inl (List.mem_filter.2 ⟨hwalk.all rfl k b' hb', by rw [hnone]; rfl⟩)

end Reads

/-! ## Every run -/

/-- A call of the delta. -/
inductive DeltaCall
  | load (slot : PersistSlot) (k : Option Bytes32) (cap : ℕ)
  | save (slot : PersistSlot) (k : Option Bytes32) (bytes : Bytes)
  | remove (slot : PersistSlot) (k : Option Bytes32)
  | list (slot : PersistSlot) (max : ℕ)
  | each (slot : PersistSlot)
  | flush
  | hold
  deriving DecidableEq, Repr

/-- What a call leaves, and whether a write was answered. -/
def deltaCall {σ : Type} (o : PersistOps σ) (d : Delta σ) : DeltaCall → Bool × Delta σ
  | .load slot k cap => (true, (deltaLoad o d slot k cap).2)
  | .save slot k bytes => deltaSave o d slot k bytes
  | .remove slot k => deltaRemove o d slot k
  | .list slot max => (true, (deltaList o d slot max).2)
  | .each slot => (true, (deltaEach o d slot).2)
  | .flush => (true, (deltaFlush o d).2)
  | .hold => (true, deltaHold d)

/-- What the calls leave. -/
def deltaCalls {σ : Type} (o : PersistOps σ) (d : Delta σ) (calls : List DeltaCall) : Delta σ :=
  calls.foldl (fun d call => (deltaCall o d call).2) d

/-- The key a call writes under. -/
def DeltaCall.writes : DeltaCall → Option RowKey
  | .save slot k _ => some (slot, k)
  | .remove slot k => some (slot, k)
  | _ => none

/-- What a call answered does to an ideal map. -/
def DeltaCall.effect : DeltaCall → RowMap → RowMap
  | .save slot k bytes, m => m.set slot k (some bytes)
  | .remove slot k, m => m.set slot k none
  | _, m => m

/-- The ideal map: every write that was answered took effect, in order. -/
def ideal {σ : Type} (o : PersistOps σ) : Delta σ → List DeltaCall → RowMap → RowMap
  | _, [], m => m
  | d, call :: calls, m =>
    ideal o (deltaCall o d call).2 calls (if (deltaCall o d call).1 then call.effect m else m)

section Runs

variable {σ : Type} {o : SteadyStore σ} {d : Delta σ}

/-- A read leaves the delta as it was but for the state of the store. -/
theorem read_spec (h : d.Sound) {s : σ} (hs : o.rows s = o.rows d.base) :
    ({ d with base := s } : Delta σ).Sound ∧
      view o.toStore { d with base := s } = view o.toStore d := by
  have htidy : ({ d with base := s } : Delta σ).Tidy :=
    ⟨h.tidy.distinct, h.tidy.perm, h.tidy.rows_eq, h.tidy.bytes_eq⟩
  exact ⟨⟨htidy, h.free⟩, view_congr h.tidy htidy rfl hs⟩

theorem deltaLoad_state (d : Delta σ) (slot : PersistSlot) (k : Option Bytes32) (cap : ℕ) :
    ∃ s, o.rows s = o.rows d.base ∧
      (deltaLoad o.toPersistOps d slot k cap).2 = { d with base := s } := by
  unfold deltaLoad
  split
  · exact ⟨_, o.load_rows _ _ _ _, rfl⟩
  · exact ⟨d.base, rfl, rfl⟩

theorem deltaList_state (d : Delta σ) (slot : PersistSlot) (max : ℕ) :
    ∃ s, o.rows s = o.rows d.base ∧
      (deltaList o.toPersistOps d slot max).2 = { d with base := s } := by
  have hrows := o.listing_rows d.base slot max
  unfold deltaList
  split
  all_goals
    next heq =>
      rw [heq] at hrows
      exact ⟨_, hrows, rfl⟩

theorem deltaEach_state (d : Delta σ) (slot : PersistSlot) :
    ∃ s, o.rows s = o.rows d.base ∧
      (deltaEach o.toPersistOps d slot).2 = { d with base := s } :=
  ⟨(o.walk d.base slot).2, o.walk_rows _ _, rfl⟩

/-- **What a call does**: the books stay in order, no count of rows given up goes down, and
where it stays the view changes as the ideal map does. -/
theorem call_spec (h : d.Sound) (call : DeltaCall) :
    (deltaCall o.toPersistOps d call).2.Sound ∧
      d.dropped ≤ (deltaCall o.toPersistOps d call).2.dropped ∧
      ((deltaCall o.toPersistOps d call).2.dropped = d.dropped →
        view o.toStore (deltaCall o.toPersistOps d call).2 =
          if (deltaCall o.toPersistOps d call).1 then call.effect (view o.toStore d)
          else view o.toStore d) := by
  have hread : ∀ d' : Delta σ, (∃ s, o.rows s = o.rows d.base ∧ d' = { d with base := s }) →
      d'.Sound ∧ d.dropped ≤ d'.dropped ∧
        (d'.dropped = d.dropped → view o.toStore d' = view o.toStore d) := by
    rintro d' ⟨s, hs, rfl⟩
    obtain ⟨hsound, hview⟩ := read_spec h hs
    exact ⟨hsound, le_rfl, fun _ => hview⟩
  have hwrote : ∀ slot k row res, Wrote o.toStore d slot k row res →
      res.2.Sound ∧ d.dropped ≤ res.2.dropped ∧ (res.2.dropped = d.dropped →
        view o.toStore res.2 = if res.1 then (view o.toStore d).set slot k row
          else view o.toStore d) := by
    rintro slot k row res ⟨hsound, ⟨gave, -, -, hdropped, -⟩, hseen⟩
    exact ⟨hsound, by omega, hseen⟩
  cases call with
  | load slot k cap => exact hread _ (deltaLoad_state d slot k cap)
  | save slot k bytes => exact hwrote _ _ _ _ (save_wrote h slot k bytes)
  | remove slot k => exact hwrote _ _ _ _ (remove_wrote h slot k)
  | list slot max => exact hread _ (deltaList_state d slot max)
  | each slot => exact hread _ (deltaEach_state d slot)
  | flush =>
    obtain ⟨hsound, hdropped, hview, -⟩ := flush_spec (o := o) h.tidy
    exact ⟨hsound, hdropped.ge, fun _ => hview⟩
  | hold =>
    have htidy : (deltaHold d).Tidy :=
      ⟨h.tidy.distinct, h.tidy.perm, h.tidy.rows_eq, h.tidy.bytes_eq⟩
    exact ⟨⟨htidy, nofun⟩, le_rfl, fun _ => view_congr h.tidy htidy rfl rfl⟩

/-- Rows are given up by writes alone. -/
theorem call_gave (h : d.Sound) (call : DeltaCall) :
    (∀ k, call.writes = some k → GaveUp d (deltaCall o.toPersistOps d call).2 k) ∧
      (call.writes = none → (deltaCall o.toPersistOps d call).2.dropped = d.dropped) := by
  cases call with
  | load slot k cap =>
    obtain ⟨s, -, heq⟩ := deltaLoad_state (o := o) d slot k cap
    refine ⟨nofun, fun _ => ?_⟩
    change (deltaLoad o.toPersistOps d slot k cap).2.dropped = d.dropped
    rw [heq]
  | save slot k bytes =>
    refine ⟨fun key hkey => ?_, nofun⟩
    obtain rfl := Option.some.inj hkey
    exact (save_wrote h slot k bytes).gave
  | remove slot k =>
    refine ⟨fun key hkey => ?_, nofun⟩
    obtain rfl := Option.some.inj hkey
    exact (remove_wrote h slot k).gave
  | list slot max =>
    obtain ⟨s, -, heq⟩ := deltaList_state (o := o) d slot max
    refine ⟨nofun, fun _ => ?_⟩
    change (deltaList o.toPersistOps d slot max).2.dropped = d.dropped
    rw [heq]
  | each slot =>
    obtain ⟨s, -, heq⟩ := deltaEach_state (o := o) d slot
    refine ⟨nofun, fun _ => ?_⟩
    change (deltaEach o.toPersistOps d slot).2.dropped = d.dropped
    rw [heq]
  | flush => exact ⟨nofun, fun _ => (flush_spec h.tidy).2.1⟩
  | hold => exact ⟨nofun, fun _ => rfl⟩

/-- **A run keeps the view and the ideal map alike**, for as long as no row is given up. -/
theorem calls_spec (h : d.Sound) (calls : List DeltaCall) :
    (deltaCalls o.toPersistOps d calls).Sound ∧
      d.dropped ≤ (deltaCalls o.toPersistOps d calls).dropped ∧
      ((deltaCalls o.toPersistOps d calls).dropped = d.dropped →
        view o.toStore (deltaCalls o.toPersistOps d calls) =
          ideal o.toPersistOps d calls (view o.toStore d)) := by
  induction calls generalizing d with
  | nil => exact ⟨h, le_rfl, fun _ => rfl⟩
  | cons call calls ih =>
    obtain ⟨hsound, hle, hseen⟩ := call_spec h call
    obtain ⟨hsound', hle', hseen'⟩ := ih hsound
    refine ⟨hsound', hle.trans hle', fun hsame => ?_⟩
    have hsame' : (deltaCalls o.toPersistOps d (call :: calls)).dropped = d.dropped := hsame
    unfold ideal
    change (deltaCalls o.toPersistOps (deltaCall o.toPersistOps d call).2 calls).dropped = _
      at hsame'
    change view o.toStore
      (deltaCalls o.toPersistOps (deltaCall o.toPersistOps d call).2 calls) = _
    rw [hseen' (by omega), hseen (by omega)]

theorem sound_init (s : σ) (budget : ℕ) (allocs : List Bool) :
    (deltaInit s budget allocs).Sound := by
  refine ⟨⟨List.nodup_nil, ?_, rfl, rfl⟩, fun _ => rfl⟩
  change [].Perm (Lib.Chains.empty : Lib.Chains deltaFiling).rows
  rw [Lib.Chains.rows_empty]

theorem view_init (s : σ) (budget : ℕ) (allocs : List Bool) :
    view o.toStore (deltaInit s budget allocs) = o.rows s := by
  funext slot k
  refine view_of_none (Lib.Chains.find_eq_none_iff.2 fun r hr => ?_)
  change r ∈ (Lib.Chains.empty : Lib.Chains deltaFiling).rows at hr
  rw [Lib.Chains.rows_empty] at hr
  exact absurd hr List.not_mem_nil

/-- A flush that leaves no row behind has made the store the view. -/
theorem flush_whole (h : d.Tidy) (hnil : (deltaFlush o.toPersistOps d).2.age = []) :
    o.rows (deltaFlush o.toPersistOps d).2.base = view o.toStore d ∧
      (deltaFlush o.toPersistOps d).2.stuck = false := by
  obtain ⟨hsound, -, hview, hfree⟩ := flush_spec (o := o) h
  refine ⟨?_, hfree hnil⟩
  rw [← hview]
  funext slot k
  refine (view_of_none (hsound.tidy.find_eq_none_iff.2 fun r hr => ?_)).symm
  rw [hnil] at hr
  exact absurd hr List.not_mem_nil

end Runs

/-- A delta over a store in state `s`, and what the calls leave of it. -/
def deltaRun {σ : Type} (o : PersistOps σ) (s : σ) (budget : ℕ) (allocs : List Bool)
    (calls : List DeltaCall) : Delta σ :=
  deltaCalls o (deltaInit s budget allocs) calls

/-- A disk with one row on it, which takes nothing and reads nothing. -/
def brokenDisk : SteadyStore Unit where
  load _ _ _ _ := (none, ())
  save _ _ _ _ := (false, ())
  list := none
  remove := some fun _ _ _ => (false, ())
  each := some fun _ _ => (([], false), ())
  rows _ slot k := if (slot, k) = (.note, none) then some [7] else none
  load_rows _ _ _ _ := rfl
  load_eq _ _ _ _ _ h := by cases h
  save_other _ _ _ _ _ _ _ := rfl
  save_self _ _ _ _ := Or.inr ⟨rfl, rfl⟩
  remove_other f hf _ _ _ _ _ _ := rfl
  remove_self f hf _ _ _ := by obtain rfl := Option.some.inj hf; exact Or.inr ⟨rfl, rfl⟩
  list_rows f hf := by cases hf
  list_eq f hf := by cases hf
  each_rows f hf _ _ := rfl
  each_eq f hf _ _ := by
    obtain rfl := Option.some.inj hf
    exact ⟨List.nodup_nil, nofun, nofun⟩
  remove_some := rfl
  save_failed _ _ _ _ _ := rfl
  remove_failed _ _ _ _ _ _ := rfl

/-- A write refused may have shed a row, and a load of the store's own may fail. -/
theorem write_refused_loses :
    let d := deltaRun brokenDisk.toPersistOps () 2 [] [.save .hostHeard none [1, 1]]
    let refused := deltaSave brokenDisk.toPersistOps d .note none [1, 2, 3]
    refused.1 = false ∧ view brokenDisk.toStore d .hostHeard none = some [1, 1] ∧
      view brokenDisk.toStore refused.2 .hostHeard none = none ∧
      d.dropped = 0 ∧ (deltaLoad brokenDisk.toPersistOps d .note none 16).1 = none ∧
      ideal brokenDisk.toPersistOps (deltaInit () 2 []) [.save .hostHeard none [1, 1]]
        (brokenDisk.rows ()) .note none = some [7] := by
  decide

/-- **The delta is invisible as long as no row is given up.**  Over every store, budget and
allocator, in every state reached: what is read through the delta is the ideal map, in which
every write answered took effect in order, and a write refused leaves it.  A load answers the
view where it fits, or nothing where the row is the store's to read and the store's load
answers nothing; a listing, and a walk whatever its `fn`, is of the live subjects, each once.
A flush that leaves no row behind has made the store the view and does not hold it stuck; a
store not stuck has no row held.  The books agree, with one row a key.  Rows are given up by
writes alone, in turn the lowest rank held and the oldest of it, never CONTROL or above, and
every other row stays but the one under the key written. -/
theorem delta_invisible {σ : Type} (o : SteadyStore σ) (s : σ) (budget : ℕ)
    (allocs : List Bool) (calls : List DeltaCall) :
    let d := deltaRun o.toPersistOps s budget allocs calls
    (d.dropped = 0 → view o.toStore d =
      ideal o.toPersistOps (deltaInit s budget allocs) calls (o.rows s)) ∧
    (∀ more, (deltaCalls o.toPersistOps d more).dropped = d.dropped →
      view o.toStore (deltaCalls o.toPersistOps d more) =
        ideal o.toPersistOps d more (view o.toStore d)) ∧
    (∀ slot k cap, (deltaLoad o.toPersistOps d slot k cap).1 =
        fitting cap (view o.toStore d slot k) ∨
      (deltaLoad o.toPersistOps d slot k cap).1 = none ∧ d.find (slot, k) = none ∧
        (o.load d.base slot k cap).1 = none) ∧
    (∀ slot max ks, (deltaList o.toPersistOps d slot max).1 = some ks →
      Lists (view o.toStore d slot) ks ∧ ks.length ≤ max) ∧
    (∀ (slot : PersistSlot) (τ : Type) (fn : τ → Bytes32 → Bool × τ) (t : τ),
      ((deltaOps o.toPersistOps).persistEach d slot fn t).1.1.Nodup ∧
      (∀ k ∈ ((deltaOps o.toPersistOps).persistEach d slot fn t).1.1,
        ∃ b, view o.toStore d slot (some k) = some b) ∧
      (((deltaOps o.toPersistOps).persistEach d slot fn t).1.2 = true →
        (heard fn t ((deltaOps o.toPersistOps).walk d slot).1.1).2 = true ∨
          Lists (view o.toStore d slot)
            ((deltaOps o.toPersistOps).persistEach d slot fn t).1.1)) ∧
    ((deltaFlush o.toPersistOps d).2.age = [] →
      o.rows (deltaFlush o.toPersistOps d).2.base = view o.toStore d ∧
        (deltaFlush o.toPersistOps d).2.stuck = false) ∧
    (d.stuck = false → d.age = []) ∧
    ((d.age.map DeltaRow.key).Nodup ∧ d.age.Perm d.buckets.rows ∧ d.rows = d.age.length ∧
      d.bytes = (d.age.map fun r => r.bytes.length).sum) ∧
    ∀ call, (∀ k, DeltaCall.writes call = some k →
        GaveUp d (deltaCall o.toPersistOps d call).2 k) ∧
      (DeltaCall.writes call = none →
        (deltaCall o.toPersistOps d call).2.dropped = d.dropped) := by
  have hstart := sound_init s budget allocs
  obtain ⟨h, -, hideal⟩ := calls_spec (o := o) hstart calls
  rw [view_init] at hideal
  change let d := deltaRun o.toPersistOps s budget allocs calls; d.Sound at h
  change (deltaRun o.toPersistOps s budget allocs calls).dropped = 0 → _ at hideal
  refine ⟨hideal, fun more => (calls_spec h more).2.2, deltaLoad_eq _, fun slot max ks =>
    deltaList_eq h.tidy, fun slot τ fn t => (deltaOps o.toPersistOps).persistEach_eq
      (deltaEach_eq h.tidy slot) fn t, flush_whole h.tidy, h.free,
    ⟨h.tidy.distinct, h.tidy.perm, h.tidy.rows_eq, h.tidy.bytes_eq⟩, call_gave h⟩

/-- A disk that takes one row and refuses the next. -/
def refusingDisk : { d : RowDisk // Lib.Outcome.unanswered ∉ d.outcomes } :=
  ⟨⟨∅, [.done, .refused]⟩, by decide⟩

/-- A row that the disk takes, one it refuses, and the first of them removed. -/
def refusedCalls : List DeltaCall :=
  [.save .note (some 5) [1], .save .note (some 6) [2, 3], .remove .note (some 5)]

/-- What is read is the second row alone, which a flush then writes. -/
theorem delta_invisible_refusing :
    let d := deltaRun steadyDisk.toPersistOps refusingDisk 100 [] refusedCalls
    view steadyDisk.toStore d = ideal steadyDisk.toPersistOps (deltaInit refusingDisk 100 [])
        refusedCalls (steadyDisk.rows refusingDisk) ∧
      view steadyDisk.toStore d .note (some 5) = none ∧
      view steadyDisk.toStore d .note (some 6) = some [2, 3] ∧
      steadyDisk.rows d.base .note (some 5) = some [1] ∧
      steadyDisk.rows d.base .note (some 6) = none ∧
      steadyDisk.rows (deltaFlush steadyDisk.toPersistOps d).2.base =
        view steadyDisk.toStore d := by
  intro d
  obtain ⟨hideal, -, -, -, -, hflush, -⟩ :=
    delta_invisible steadyDisk refusingDisk 100 [] refusedCalls
  exact ⟨hideal (by decide +kernel), by decide +kernel, by decide +kernel, by decide +kernel,
    by decide +kernel, (hflush (by decide +kernel)).1⟩

end Persist
end Fuzznet
