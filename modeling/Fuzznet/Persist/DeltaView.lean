/-
# The delta is not seen

`persist/delta.h`: a store that goes on working when its disk will not.  What is read through
a delta is one map, the store's rows under the delta's own (`view`).  A save or a removal
answered sets it at its key, one refused leaves it, and a flush leaves it too, as it moves
rows from the delta to the store, each its key's newest; so as long as no row is given up the
map is what a store would hold that never refused a write (`ideal`).

Giving rows up is what makes the difference, and it is the writes that do: rows are shed to
make room for a row, which may then be refused after all.
-/

import Fuzznet.Persist.Delta

namespace Fuzznet
namespace Persist

open Wire (Bytes Bytes32)

/-- A store that can remove, and whose failing saves and removals leave its rows. -/
structure SteadyStore (σ : Type) extends Store σ where
  remove_some : remove.isSome = true
  save_failed : ∀ s slot k b, (save s slot k b).1 = false → rows (save s slot k b).2 = rows s
  remove_failed : ∀ f ∈ remove, ∀ s slot k, (f s slot k).1 = false →
    rows (f s slot k).2 = rows s

/-- **A disk that answers for every change is steady.** -/
def steadyDisk : SteadyStore { d : RowDisk // Lib.Outcome.unanswered ∉ d.outcomes } where
  load d slot k cap := ((diskStore.load d.1 slot k cap).1,
    ⟨(diskStore.load d.1 slot k cap).2, fun h => d.2 (List.mem_of_mem_tail h)⟩)
  save d slot k b := ((d.1.save (slot, k) b).1,
    ⟨(d.1.save (slot, k) b).2, fun h => d.2 ((d.1.save_behind _ _).subset h)⟩)
  list := some fun d slot max => ((d.1.list (subjectIn slot) max).1,
    ⟨(d.1.list (subjectIn slot) max).2, fun h => d.2 ((d.1.list_behind _ _).subset h)⟩)
  remove := some fun d slot k => ((d.1.remove (slot, k)).1,
    ⟨(d.1.remove (slot, k)).2, fun h => d.2 ((d.1.remove_behind _).subset h)⟩)
  each := none
  rows d := diskStore.rows d.1
  load_rows d := diskStore.load_rows d.1
  load_eq d := diskStore.load_eq d.1
  save_other d := diskStore.save_other d.1
  save_self d := diskStore.save_self d.1
  remove_other f hf d := by
    obtain rfl := Option.some.inj hf
    exact diskStore.remove_other _ rfl d.1
  remove_self f hf d := by
    obtain rfl := Option.some.inj hf
    exact diskStore.remove_self _ rfl d.1
  list_rows f hf d := by
    obtain rfl := Option.some.inj hf
    exact diskStore.list_rows _ rfl d.1
  list_eq f hf d := by
    obtain rfl := Option.some.inj hf
    exact diskStore.list_eq _ rfl d.1
  each_rows _ hf := by cases hf
  each_eq _ hf := by cases hf
  remove_some := rfl
  save_failed d slot k b hno := by
    rcases Lib.Disk.save_answer (k := (slot, k)) (b := b) d.2 with hok | hrows
    · exact absurd (hok.symm.trans hno) Bool.noConfusion
    · funext slot' k'
      exact congrArg (AList.lookup (slot', k')) hrows
  remove_failed f hf d slot k hno := by
    obtain rfl := Option.some.inj hf
    rcases Lib.Disk.change_answer d.2 (d.1.rows.erase (slot, k)) with hok | hrows
    · exact absurd (hok.symm.trans hno) Bool.noConfusion
    · funext slot' k'
      exact congrArg (AList.lookup (slot', k')) hrows

/-- Rows by slot and subject. -/
abbrev RowMap := PersistSlot → Option Bytes32 → Option Bytes

/-- The map with one row set, or none in its place. -/
def RowMap.set (m : RowMap) (slot : PersistSlot) (k : Option Bytes32) (row : Option Bytes) :
    RowMap :=
  fun slot' k' => if (slot', k') = (slot, k) then row else m slot' k'

/-- What is read through a delta: its own rows, and the store's where it has none. -/
def view {σ : Type} (o : Store σ) (d : Delta σ) : RowMap :=
  fun slot k => (d.find (slot, k)).elim (o.rows d.base slot k) DeltaRow.says

section View

variable {σ : Type} {o : Store σ} {d d' : Delta σ} {slot : PersistSlot} {k : Option Bytes32}

theorem view_of_find {r : DeltaRow} (h : d.find (slot, k) = some r) :
    view o d slot k = r.says := by
  rw [view, h, Option.elim_some]

theorem view_of_none (h : d.find (slot, k) = none) : view o d slot k = o.rows d.base slot k := by
  rw [view, h, Option.elim_none]

/-- The same rows over the same store are the same view. -/
theorem view_congr (h : d.Tidy) (h' : d'.Tidy) (hage : d'.age = d.age)
    (hrows : o.rows d'.base = o.rows d.base) : view o d' = view o d := by
  funext slot k
  rw [view, view, h.find_congr h' hage, hrows]

/-- **A row written to the store and let go here sets the view at its key.** -/
theorem view_written (h : d.Tidy) {s : σ} {row : Option Bytes}
    (hs : ∀ slot' k', (slot', k') ≠ (slot, k) → o.rows s slot' k' = o.rows d.base slot' k')
    (hrow : o.rows s slot k = row) :
    view o ({ d with base := s }.dropHeld (slot, k)) = (view o d).set slot k row := by
  have htidy : ({ d with base := s } : Delta σ).Tidy :=
    ⟨h.distinct, h.perm, h.rows_eq, h.bytes_eq⟩
  have hbase := (Delta.dropHeld_frame { d with base := s } (slot, k)).1
  funext slot' k'
  rw [RowMap.set]
  split
  next heq =>
    obtain ⟨rfl, rfl⟩ := Prod.mk.inj heq
    rw [view_of_none (Delta.find_dropHeld_self htidy _), hbase]
    exact hrow
  next hne =>
    rw [view, view, Delta.find_dropHeld_ne htidy hne, hbase, hs slot' k' hne]
    rfl

/-- **A row held sets the view at its key.** -/
theorem view_put (h : d.Tidy) (r : DeltaRow) :
    view o (d.put r) = (view o d).set r.slot r.subject r.says := by
  have hbase : (d.put r).base = d.base := (d.dropHeld_frame r.key).1
  funext slot' k'
  rw [RowMap.set]
  split
  next heq =>
    obtain ⟨rfl, rfl⟩ := Prod.mk.inj heq
    exact view_of_find (Delta.find_put_self h r)
  next hne => rw [view, view, Delta.find_put_ne h hne, hbase]

theorem GivenUp.eq_of_nil {age age' : List DeltaRow} (h : GivenUp age [] age') : age' = age := by
  cases h
  rfl

theorem Delta.Shed.view (h : d.Tidy) (hs : d.Shed d' []) : Persist.view o d' = Persist.view o d :=
  view_congr h hs.tidy hs.given.eq_of_nil (by rw [hs.base])

/-- A row held or refused, where nothing is given up for it. -/
theorem hold_view (h : d.Tidy) (r : DeltaRow) (hdropped : (d.hold r).2.dropped = d.dropped) :
    view o (d.hold r).2 = if (d.hold r).1 then (view o d).set r.slot r.subject r.says
      else view o d := by
  obtain ⟨gave, d', hshed, hcases⟩ := Delta.hold_spec h r
  have hlen : (d.hold r).2.dropped = d.dropped + gave.length := by
    rcases hcases with ⟨-, heq⟩ | ⟨-, heq⟩
    · rw [heq, hshed.dropped]
    · rw [heq, ← hshed.dropped]
      exact (d'.dropHeld_frame r.key).2.2
  obtain rfl : gave = [] := List.eq_nil_of_length_eq_zero (by omega)
  rcases hcases with ⟨hf, heq⟩ | ⟨ht, heq⟩
  · rw [hf, heq]
    exact hshed.view h
  · rw [ht, heq, view_put hshed.tidy, hshed.view h]
    rfl

/-! ## A save and a removal -/

/-- A delta between two calls: its books are in order, and a store not asked to wait is not
behind. -/
structure Delta.Sound (d : Delta σ) : Prop where
  tidy : d.Tidy
  free : d.stuck = false → d.age = []

/-- What a write under `k` gave up: the rows, in turn, and that every other row stays but the
one under its key. -/
def GaveUp (d d' : Delta σ) (k : RowKey) : Prop :=
  ∃ gave age, GivenUp d.age gave age ∧ d'.dropped = d.dropped + gave.length ∧
    (d'.age.filter fun r => r.key ≠ k) = age.filter fun r => r.key ≠ k

/-- What a write under a key does, answered or not. -/
structure Wrote (o : Store σ) (d : Delta σ) (slot : PersistSlot) (k : Option Bytes32)
    (row : Option Bytes) (res : Bool × Delta σ) : Prop where
  sound : res.2.Sound
  gave : GaveUp d res.2 (slot, k)
  seen : res.2.dropped = d.dropped →
    view o res.2 = if res.1 then (view o d).set slot k row else view o d

/-- A row that is filtered out may as well be erased. -/
theorem filter_erase {p : DeltaRow → Bool} {r : DeltaRow} (h : p r = false)
    (age : List DeltaRow) : (age.erase r).filter p = age.filter p := by
  induction age with
  | nil => rfl
  | cons a age ih =>
    by_cases ha : a = r
    · rw [ha, List.erase_cons_head, List.filter_cons_of_neg (by rw [h]; exact Bool.false_ne_true)]
    · rw [List.erase_cons_tail (by simpa using ha), List.filter_cons, List.filter_cons, ih]

theorem filter_dropHeld (d : Delta σ) (k : RowKey) :
    ((d.dropHeld k).age.filter fun r => r.key ≠ k) = d.age.filter fun r => r.key ≠ k := by
  unfold Delta.dropHeld
  split
  next => rfl
  next r hf =>
    have hkey : r.key = k := (Lib.Chains.mem_of_find hf).2
    exact filter_erase (by simpa using hkey) d.age

theorem filter_put (d : Delta σ) (r : DeltaRow) :
    ((d.put r).age.filter fun r' => r'.key ≠ r.key) = d.age.filter fun r' => r'.key ≠ r.key := by
  change (((d.dropHeld r.key).age ++ [r]).filter fun r' => r'.key ≠ r.key) = _
  rw [List.filter_append, filter_dropHeld, List.filter_cons_of_neg (by simp), List.filter_nil,
    List.append_nil]

/-- A row held or refused. -/
theorem hold_wrote (h : d.Tidy) (hstuck : d.stuck = true) (r : DeltaRow) :
    Wrote o d r.slot r.subject r.says (d.hold r) := by
  have hseen := hold_view (o := o) h r
  obtain ⟨gave, d', hshed, hcases⟩ := Delta.hold_spec h r
  refine ⟨?_, ⟨gave, d'.age, hshed.given, ?_⟩, hseen⟩
  · rcases hcases with ⟨-, heq⟩ | ⟨-, heq⟩
    · rw [heq]
      exact ⟨hshed.tidy, fun hno => by rw [hshed.stuck, hstuck] at hno; cases hno⟩
    · rw [heq]
      refine ⟨hshed.tidy.put r, fun hno => ?_⟩
      have hsame : (d'.put r).stuck = d'.stuck := (d'.dropHeld_frame r.key).2.1
      rw [hsame, hshed.stuck, hstuck] at hno
      cases hno
  · rcases hcases with ⟨-, heq⟩ | ⟨-, heq⟩
    · rw [heq]
      exact ⟨hshed.dropped, rfl⟩
    · rw [heq]
      exact ⟨(d'.dropHeld_frame r.key).2.2.trans hshed.dropped, filter_put d' r⟩

/-- A row the store took. -/
theorem written_wrote (h : d.Sound) {s : σ} {row : Option Bytes}
    (hs : ∀ slot' k', (slot', k') ≠ (slot, k) → o.rows s slot' k' = o.rows d.base slot' k')
    (hrow : o.rows s slot k = row) :
    Wrote o d slot k row (true, { d with base := s }.dropHeld (slot, k)) := by
  have htidy : ({ d with base := s } : Delta σ).Tidy :=
    ⟨h.tidy.distinct, h.tidy.perm, h.tidy.rows_eq, h.tidy.bytes_eq⟩
  have hframe := Delta.dropHeld_frame { d with base := s } (slot, k)
  refine ⟨⟨htidy.dropHeld _, fun hno => ?_⟩,
    ⟨[], d.age, .none _, hframe.2.2, filter_dropHeld _ _⟩,
    fun _ => view_written h.tidy hs hrow⟩
  have hnil := h.free (hframe.2.1.symm.trans hno)
  have hsub := Delta.dropHeld_age_subset { d with base := s } (slot, k)
  exact List.eq_nil_of_subset_nil (hnil ▸ hsub)

/-- A row the store refused, and the delta then held or refused. -/
theorem refused_wrote (h : d.Sound) {s : σ} (hs : o.rows s = o.rows d.base) (r : DeltaRow) :
    Wrote o d r.slot r.subject r.says ({ d with base := s, stuck := true }.hold r) := by
  have htidy : ({ d with base := s, stuck := true } : Delta σ).Tidy :=
    ⟨h.tidy.distinct, h.tidy.perm, h.tidy.rows_eq, h.tidy.bytes_eq⟩
  have hsame : view o { d with base := s, stuck := true } = view o d :=
    view_congr h.tidy htidy rfl hs
  obtain ⟨hsound, hgave, hseen⟩ := hold_wrote (o := o) htidy rfl r
  rw [hsame] at hseen
  exact ⟨hsound, hgave, hseen⟩

variable {o : SteadyStore σ}

/-- **What a save does.** -/
theorem save_wrote (h : d.Sound) (slot : PersistSlot) (k : Option Bytes32) (bytes : Bytes) :
    Wrote o.toStore d slot k (some bytes) (deltaSave o.toPersistOps d slot k bytes) := by
  have hother := o.save_other d.base slot k bytes
  have hdone := @Store.save_done σ o.toStore d.base slot k bytes
  have hfailed := o.save_failed d.base slot k bytes
  unfold deltaSave
  split
  next hstuck => exact hold_wrote h.tidy hstuck ⟨slot, k, false, bytes⟩
  next =>
    cases hsave : o.save d.base slot k bytes with
    | mk answered s =>
      rw [hsave] at hother hdone hfailed
      cases answered with
      | true => exact written_wrote h hother (hdone rfl)
      | false => exact refused_wrote h (hfailed rfl) ⟨slot, k, false, bytes⟩

/-- **What a removal does.** -/
theorem remove_wrote (h : d.Sound) (slot : PersistSlot) (k : Option Bytes32) :
    Wrote o.toStore d slot k none (deltaRemove o.toPersistOps d slot k) := by
  obtain ⟨f, hf⟩ := Option.isSome_iff_exists.1 o.remove_some
  have hother := o.remove_other f hf d.base slot k
  have hdone := @Store.remove_done σ o.toStore f hf d.base slot k
  have hfailed := o.remove_failed f hf d.base slot k
  unfold deltaRemove
  by_cases hstuck : d.stuck = true
  · rw [if_pos hstuck]
    exact hold_wrote h.tidy hstuck ⟨slot, k, true, []⟩
  · rw [if_neg hstuck, hf]
    dsimp only
    cases hremove : f d.base slot k with
    | mk answered s =>
      rw [hremove] at hother hdone hfailed
      cases answered with
      | true => exact written_wrote h hother (hdone rfl)
      | false => exact refused_wrote h (hfailed rfl) ⟨slot, k, true, []⟩

/-! ## A flush -/

/-- What the write of one row by a flush does to the store. -/
theorem flushOne_spec (s : σ) (r : DeltaRow) :
    (∀ slot' k', (slot', k') ≠ (r.slot, r.subject) →
      o.rows (flushOne o.toPersistOps s r).2 slot' k' = o.rows s slot' k') ∧
    ((flushOne o.toPersistOps s r).1 = true →
      o.rows (flushOne o.toPersistOps s r).2 r.slot r.subject = r.says) ∧
    ((flushOne o.toPersistOps s r).1 = false →
      o.rows (flushOne o.toPersistOps s r).2 = o.rows s) := by
  obtain ⟨f, hf⟩ := Option.isSome_iff_exists.1 o.remove_some
  unfold flushOne DeltaRow.says
  split
  next =>
    rw [hf]
    exact ⟨o.remove_other f hf s r.slot r.subject, o.remove_done hf,
      o.remove_failed f hf s r.slot r.subject⟩
  next =>
    exact ⟨o.save_other s r.slot r.subject r.bytes, o.save_done,
      o.save_failed s r.slot r.subject r.bytes⟩

/-- **A flush is not seen**, wherever it stops; and it stops where the store refuses a row,
or with no row left. -/
theorem flushRows_spec (rs : List DeltaRow) (h : d.Tidy) (hage : d.age = rs) :
    (flushRows o.toPersistOps rs d).2.Sound ∧
      (flushRows o.toPersistOps rs d).2.dropped = d.dropped ∧
      view o.toStore (flushRows o.toPersistOps rs d).2 = view o.toStore d ∧
      ((flushRows o.toPersistOps rs d).2.age = [] →
        (flushRows o.toPersistOps rs d).2.stuck = false) := by
  induction rs generalizing d with
  | nil =>
    have htidy : ({ d with stuck := false } : Delta σ).Tidy :=
      ⟨h.distinct, h.perm, h.rows_eq, h.bytes_eq⟩
    exact ⟨⟨htidy, fun _ => hage⟩, rfl, rfl, fun _ => rfl⟩
  | cons r rs ih =>
    have hr : r ∈ d.age := by rw [hage]; exact List.mem_cons_self
    obtain ⟨hother, hdone, hfailed⟩ := flushOne_spec (o := o) d.base r
    unfold flushRows
    cases hone : flushOne o.toPersistOps d.base r with
    | mk wrote s =>
      rw [hone] at hother hdone hfailed
      have htidy : ({ d with base := s } : Delta σ).Tidy :=
        ⟨h.distinct, h.perm, h.rows_eq, h.bytes_eq⟩
      cases wrote with
      | false =>
        have hstuck : ({ d with base := s, stuck := true } : Delta σ).Tidy :=
          ⟨h.distinct, h.perm, h.rows_eq, h.bytes_eq⟩
        refine ⟨⟨hstuck, nofun⟩, rfl, view_congr h hstuck rfl (hfailed rfl), fun hnil => ?_⟩
        rw [show d.age = [] from hnil] at hr
        exact absurd hr List.not_mem_nil
      | true =>
        have hnext : ({ d with base := s }.dropRow r : Delta σ).age = rs := by
          change d.age.erase r = rs
          rw [hage, List.erase_cons_head]
        have hdrop := htidy.dropRow hr
        have hheld :
            { d with base := s }.dropHeld r.key = { d with base := s }.dropRow r := by
          unfold Delta.dropHeld
          simp only [htidy.find_eq_some_iff.2 ⟨hr, rfl⟩]
        have hview := view_written (o := o.toStore) h hother (hdone rfl)
        obtain ⟨hsound, hdropped, hseen, hfree⟩ := ih
          (d := { { d with base := s }.dropRow r with flushed := d.flushed + 1 })
          ⟨hdrop.distinct, hdrop.perm, hdrop.rows_eq, hdrop.bytes_eq⟩ hnext
        refine ⟨hsound, hdropped, hseen.trans ?_, hfree⟩
        change view o.toStore ({ d with base := s }.dropRow r) = view o.toStore d
        rw [← hheld]
        refine hview.trans ?_
        funext slot' k'
        rw [RowMap.set]
        split
        next heq =>
          obtain ⟨rfl, rfl⟩ := Prod.mk.inj heq
          exact (view_of_find (h.find_eq_some_iff.2 ⟨hr, rfl⟩)).symm
        next => rfl

theorem flush_spec (h : d.Tidy) : (deltaFlush o.toPersistOps d).2.Sound ∧
    (deltaFlush o.toPersistOps d).2.dropped = d.dropped ∧
    view o.toStore (deltaFlush o.toPersistOps d).2 = view o.toStore d ∧
    ((deltaFlush o.toPersistOps d).2.age = [] →
      (deltaFlush o.toPersistOps d).2.stuck = false) :=
  flushRows_spec d.age h rfl

end View

end Persist
end Fuzznet
