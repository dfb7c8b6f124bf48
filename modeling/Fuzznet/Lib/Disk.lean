/-
# A disk that may fail

Rows under keys, and how the operations to come will end.  A save or a removal is done,
is refused and leaves the disk, or is done and never answered, which its caller cannot
tell from a refusal; a listing answers the keys held or nothing.  What holds however they
end is stated for every disk (`load_save_ne`, `save_rows`), and what an answer is worth
for the operations answered (`load_of_save`, `load_of_remove`, `mem_of_list`).
-/

import Mathlib.Data.Finset.Card
import Mathlib.Data.List.AList

namespace Fuzznet
namespace Lib

/-- How an operation ends. -/
inductive Outcome
  | done
  | refused
  | unanswered
  deriving DecidableEq, Repr

/-- The rows, and the outcomes of the operations to come; `done` behind the last of them. -/
structure Disk (κ β : Type) where
  rows : AList fun _ : κ => β
  outcomes : List Outcome

namespace Disk

variable {κ β γ : Type} [DecidableEq κ]

/-- How the next operation ends. -/
def next (d : Disk κ β) : Outcome := d.outcomes.headD .done

/-- The next `n` operations are done and answered. -/
def Answers (d : Disk κ β) (n : ℕ) : Prop := ∀ o ∈ d.outcomes.take n, o = .done

/-- The row under a key. -/
def load (d : Disk κ β) (k : κ) : Option β := d.rows.lookup k

/-- The row under a key, asked of the disk: nothing where it does not answer. -/
def ask (d : Disk κ β) (k : κ) : Option β × Disk κ β :=
  (if d.next = .done then d.load k else none, ⟨d.rows, d.outcomes.tail⟩)

/-- A change of the rows, by the next outcome: whether it was answered. -/
def change (d : Disk κ β) (rows : AList fun _ : κ => β) : Bool × Disk κ β :=
  match d.next with
  | .done => (true, ⟨rows, d.outcomes.tail⟩)
  | .refused => (false, ⟨d.rows, d.outcomes.tail⟩)
  | .unanswered => (false, ⟨rows, d.outcomes.tail⟩)

/-- A row written, in the place of one under its key. -/
def save (d : Disk κ β) (k : κ) (b : β) : Bool × Disk κ β := d.change (d.rows.insert k b)

/-- A row gone, or never there. -/
def remove (d : Disk κ β) (k : κ) : Bool × Disk κ β := d.change (d.rows.erase k)

/-- What `f` reads in the keys held, or nothing: the disk did not answer, or there are
more than `max`. -/
def list (d : Disk κ β) (f : κ → Option γ) (max : ℕ) : Option (List γ) × Disk κ β :=
  match d.next with
  | .done => (if (d.rows.keys.filterMap f).length ≤ max then some (d.rows.keys.filterMap f)
      else none, ⟨d.rows, d.outcomes.tail⟩)
  | _ => (none, ⟨d.rows, d.outcomes.tail⟩)

variable {d : Disk κ β} {k k' : κ} {b : β}

omit [DecidableEq κ] in
theorem change_rows (d : Disk κ β) (rows : AList fun _ : κ => β) :
    (d.change rows).2.rows = rows ∨
      (d.change rows).1 = false ∧ (d.change rows).2.rows = d.rows := by
  unfold change
  split
  · exact Or.inl rfl
  · exact Or.inr ⟨rfl, rfl⟩
  · exact Or.inl rfl

omit [DecidableEq κ] in
theorem change_outcomes (d : Disk κ β) (rows : AList fun _ : κ => β) :
    (d.change rows).2.outcomes = d.outcomes.tail := by
  unfold change
  split <;> rfl

/-- A save writes its row or leaves the disk, and is not answered then. -/
theorem save_rows (d : Disk κ β) (k : κ) (b : β) : (d.save k b).2.rows = d.rows.insert k b ∨
    (d.save k b).1 = false ∧ (d.save k b).2.rows = d.rows :=
  d.change_rows _

theorem remove_rows (d : Disk κ β) (k : κ) : (d.remove k).2.rows = d.rows.erase k ∨
    (d.remove k).1 = false ∧ (d.remove k).2.rows = d.rows :=
  d.change_rows _

theorem load_save_ne (h : k' ≠ k) : (d.save k b).2.load k' = d.load k' := by
  rcases d.save_rows k b with hrows | ⟨-, hrows⟩ <;> rw [load, hrows, load]
  exact AList.lookup_insert_ne h

theorem load_save_self (d : Disk κ β) (k : κ) (b : β) :
    (d.save k b).2.load k = some b ∨
      (d.save k b).1 = false ∧ (d.save k b).2.load k = d.load k := by
  rcases d.save_rows k b with hrows | ⟨hno, hrows⟩
  · exact Or.inl (by rw [load, hrows, AList.lookup_insert])
  · exact Or.inr ⟨hno, by rw [load, hrows, load]⟩

/-- **A save answered has written its row.** -/
theorem load_of_save (h : (d.save k b).1 = true) : (d.save k b).2.load k = some b := by
  rcases d.load_save_self k b with hsome | ⟨hno, -⟩
  · exact hsome
  · exact absurd h (by rw [hno]; exact Bool.false_ne_true)

theorem load_remove_ne (h : k' ≠ k) : (d.remove k).2.load k' = d.load k' := by
  rcases d.remove_rows k with hrows | ⟨-, hrows⟩ <;> rw [load, hrows, load]
  exact AList.lookup_erase_ne h

theorem load_remove_self (d : Disk κ β) (k : κ) :
    (d.remove k).2.load k = none ∨
      (d.remove k).1 = false ∧ (d.remove k).2.load k = d.load k := by
  rcases d.remove_rows k with hrows | ⟨hno, hrows⟩
  · exact Or.inl (by rw [load, hrows, AList.lookup_erase])
  · exact Or.inr ⟨hno, by rw [load, hrows, load]⟩

/-- **A removal answered has removed the row.** -/
theorem load_of_remove (h : (d.remove k).1 = true) : (d.remove k).2.load k = none := by
  rcases d.load_remove_self k with hnone | ⟨hno, -⟩
  · exact hnone
  · exact absurd h (by rw [hno]; exact Bool.false_ne_true)

/-- A removal adds no row. -/
theorem load_remove_imp (h : (d.remove k).2.load k' = some b) : d.load k' = some b := by
  rcases eq_or_ne k' k with rfl | hne
  · rcases d.load_remove_self k' with hnone | ⟨-, hsame⟩
    · exact absurd (h.symm.trans hnone) (by simp)
    · exact hsame.symm.trans h
  · rwa [load_remove_ne hne] at h

/-- **What is answered is held.** -/
theorem load_of_ask {d : Disk κ β} {k : κ} {b : β} (h : (d.ask k).1 = some b) :
    d.load k = some b := by
  unfold ask at h
  dsimp only at h
  split at h
  · exact h
  · cases h

theorem ask_of_done (h : d.next = .done) (k : κ) : (d.ask k).1 = d.load k := if_pos h

/-! ## Listing -/

omit [DecidableEq κ] in
theorem list_rows (d : Disk κ β) (f : κ → Option γ) (max : ℕ) :
    (d.list f max).2.rows = d.rows := by
  unfold list
  split <;> rfl

@[simp] theorem load_list (d : Disk κ β) (f : κ → Option γ) (max : ℕ) (k : κ) :
    (d.list f max).2.load k = d.load k := by
  rw [load, list_rows, load]

theorem mem_keys_iff : k ∈ d.rows.keys ↔ ∃ b, d.load k = some b := by
  rw [← AList.mem_keys, ← AList.lookup_isSome, Option.isSome_iff_exists]
  exact Iff.rfl

variable {f : κ → Option γ} {n : ℕ}

omit [DecidableEq κ] in
theorem eq_of_list {max : ℕ} {xs : List γ} (h : (d.list f max).1 = some xs) :
    xs = d.rows.keys.filterMap f := by
  unfold list at h
  split at h
  · split at h
    · exact (Option.some.inj h).symm
    · exact absurd h (by simp)
  · exact absurd h (by simp)

omit [DecidableEq κ] in
theorem length_of_list {max : ℕ} {xs : List γ} (h : (d.list f max).1 = some xs) :
    xs.length ≤ max := by
  unfold list at h
  split at h
  · split at h
    next hle =>
      rw [← Option.some.inj h]
      exact hle
    next => cases h
  · cases h

/-- **A listing answered is of the keys held.** -/
theorem mem_of_list {max : ℕ} {xs : List γ} (h : (d.list f max).1 = some xs) {x : γ} :
    x ∈ xs ↔ ∃ k b, f k = some x ∧ d.load k = some b := by
  rw [eq_of_list h, List.mem_filterMap]
  constructor
  · rintro ⟨k, hk, hf⟩
    obtain ⟨b, hb⟩ := mem_keys_iff.1 hk
    exact ⟨k, b, hf, hb⟩
  · rintro ⟨k, b, hf, hb⟩
    exact ⟨k, mem_keys_iff.2 ⟨b, hb⟩, hf⟩

/-- A row `f` does not read leaves what it reads. -/
theorem filterMap_erase (h : f k = none) (keys : List κ) :
    (keys.erase k).filterMap f = keys.filterMap f := by
  induction keys with
  | nil => rfl
  | cons k' keys ih =>
    by_cases hk : k' = k
    · rw [hk, List.erase_cons_head, List.filterMap_cons_none h]
    · rw [List.erase_cons_tail (by simpa using hk), List.filterMap_cons, List.filterMap_cons, ih]

theorem filterMap_save (h : f k = none) :
    (d.save k b).2.rows.keys.filterMap f = d.rows.keys.filterMap f := by
  rcases d.save_rows k b with hrows | ⟨-, hrows⟩ <;> rw [hrows]
  rw [AList.keys_insert, List.filterMap_cons_none h, filterMap_erase h]

/-! ## The operations to come -/

/-- A disk behind another: its operations to come are the last of the other's. -/
def Behind (d' d : Disk κ β) : Prop := d'.outcomes <:+ d.outcomes

omit [DecidableEq κ] in
theorem Behind.refl (d : Disk κ β) : d.Behind d := List.suffix_rfl

omit [DecidableEq κ] in
theorem Behind.trans {d₁ d₂ d₃ : Disk κ β} (h : d₃.Behind d₂) (h' : d₂.Behind d₁) :
    d₃.Behind d₁ :=
  List.IsSuffix.trans h h'

theorem save_behind (d : Disk κ β) (k : κ) (b : β) : (d.save k b).2.Behind d := by
  rw [Behind, save, change_outcomes]
  exact List.tail_suffix _

theorem remove_behind (d : Disk κ β) (k : κ) : (d.remove k).2.Behind d := by
  rw [Behind, remove, change_outcomes]
  exact List.tail_suffix _

omit [DecidableEq κ] in
theorem list_behind (d : Disk κ β) (f : κ → Option γ) (max : ℕ) : (d.list f max).2.Behind d := by
  unfold list Behind
  split <;> exact List.tail_suffix _

omit [DecidableEq κ] in
/-- A change that may not go unanswered says whether it is made. -/
theorem change_answer (h : Outcome.unanswered ∉ d.outcomes) (rows : AList fun _ : κ => β) :
    (d.change rows).1 = true ∨ (d.change rows).2.rows = d.rows := by
  unfold change next
  cases ho : d.outcomes with
  | nil => exact Or.inl rfl
  | cons o os =>
    cases o with
    | done => exact Or.inl rfl
    | refused => exact Or.inr rfl
    | unanswered => exact absurd (by rw [ho]; exact List.mem_cons_self) h

theorem save_answer (h : Outcome.unanswered ∉ d.outcomes) :
    (d.save k b).1 = true ∨ (d.save k b).2.rows = d.rows :=
  change_answer h _

theorem save_of_nil (h : d.outcomes = []) :
    d.save k b = (true, ⟨d.rows.insert k b, []⟩) := by
  unfold save change next
  rw [h]
  rfl

omit [DecidableEq κ] in
theorem list_of_nil {max : ℕ} (h : d.outcomes = [])
    (hlen : (d.rows.keys.filterMap f).length ≤ max) :
    (d.list f max).1 = some (d.rows.keys.filterMap f) := by
  unfold list next
  rw [h]
  exact if_pos hlen

omit [DecidableEq κ] in
theorem Answers.next (h : d.Answers (n + 1)) : d.next = .done := by
  unfold Disk.next
  cases ho : d.outcomes with
  | nil => rfl
  | cons o os => exact h o (by rw [ho, List.take_succ_cons]; exact List.mem_cons_self)

omit [DecidableEq κ] in
theorem Answers.tail {d' : Disk κ β} (h : d.Answers (n + 1))
    (htail : d'.outcomes = d.outcomes.tail) : d'.Answers n := by
  intro o ho
  rw [htail] at ho
  refine h o ?_
  cases hos : d.outcomes with
  | nil => rw [hos] at ho; simp at ho
  | cons a os =>
    rw [hos, List.tail_cons] at ho
    rw [List.take_succ_cons]
    exact List.mem_cons_of_mem a ho

omit [DecidableEq κ] in
theorem Answers.change (h : d.Answers (n + 1)) (rows : AList fun _ : κ => β) :
    (d.change rows).1 = true ∧ (d.change rows).2.Answers n := by
  refine ⟨?_, h.tail (change_outcomes d rows)⟩
  unfold Disk.change
  rw [h.next]

omit [DecidableEq κ] in
theorem Answers.list {n max : ℕ} (h : d.Answers (n + 1))
    (hlen : (d.rows.keys.filterMap f).length ≤ max) :
    (d.list f max).1 = some (d.rows.keys.filterMap f) ∧ (d.list f max).2.Answers n := by
  unfold Disk.list
  rw [h.next]
  exact ⟨if_pos hlen, h.tail rfl⟩

theorem Answers.save (h : d.Answers (n + 1)) (k : κ) (b : β) :
    (d.save k b).1 = true ∧ (d.save k b).2.Answers n :=
  h.change _

theorem Answers.remove (h : d.Answers (n + 1)) (k : κ) :
    (d.remove k).1 = true ∧ (d.remove k).2.Answers n :=
  h.change _

/-- A save refused leaves the rows. -/
theorem save_of_refused (h : d.next = .refused) (k : κ) (b : β) :
    (d.save k b).1 = false ∧ (d.save k b).2.rows = d.rows := by
  unfold Disk.save change
  rw [h]
  exact ⟨rfl, rfl⟩

end Disk

/-! ## Rows in batches

A loop over a list that may stop before its end (`attempt`), and the rows of a disk that hold
something of a kind (`Disk.rowsWith`), which a loop that handles them a batch at a time counts
down by. -/

variable {σ α : Type*}

/-- `f` for one element after another, up to the first it answers with no: whether it came to
the end, and what is left behind. -/
def attempt (f : σ → α → Bool × σ) : List α → σ → Bool × σ
  | [], s => (true, s)
  | a :: as, s => if (f s a).1 then attempt f as (f s a).2 else (false, (f s a).2)

theorem attempt_cons_of_true {f : σ → α → Bool × σ} {s s' : σ} {a : α} (h : f s a = (true, s'))
    (as : List α) : attempt f (a :: as) s = attempt f as s' := by
  rw [attempt, h]
  rfl

theorem attempt_cons_of_false {f : σ → α → Bool × σ} {s s' : σ} {a : α} (h : f s a = (false, s'))
    (as : List α) : attempt f (a :: as) s = (false, s') := by
  rw [attempt, h]
  rfl

namespace Disk

variable {κ β : Type} [DecidableEq κ]

/-- The rows that hold something of a kind. -/
def rowsWith (d : Disk κ β) (p : β → Bool) : Finset κ :=
  d.rows.keys.toFinset.filter fun k => (d.load k).any p

theorem mem_rowsWith {d : Disk κ β} {p : β → Bool} {k : κ} :
    k ∈ d.rowsWith p ↔ ∃ b, d.load k = some b ∧ p b = true := by
  rw [rowsWith, Finset.mem_filter, List.mem_toFinset, mem_keys_iff, Option.any_eq_true]
  exact ⟨fun h => h.2, fun h => ⟨⟨h.choose, h.choose_spec.1⟩, h⟩⟩

/-- A row holds something of a kind where it holds what another disk does, of that kind. -/
theorem mem_rowsWith_congr {d d' : Disk κ β} {p : β → Bool} {k : κ} (h : d.load k = d'.load k) :
    k ∈ d.rowsWith p ↔ k ∈ d'.rowsWith p := by
  rw [mem_rowsWith, mem_rowsWith, h]

theorem remove_of_nil {d : Disk κ β} (h : d.outcomes = []) (k : κ) :
    d.remove k = (true, ⟨d.rows.erase k, []⟩) := by
  unfold remove change next
  rw [h]
  rfl

omit [DecidableEq κ] in
/-- A listing of every key. -/
theorem list_keys_of_nil {d : Disk κ β} (h : d.outcomes = []) :
    d.list some d.rows.keys.length = (some d.rows.keys, d) := by
  obtain ⟨rows, outcomes⟩ := d
  obtain rfl : outcomes = [] := h
  unfold list next
  dsimp only
  rw [List.filterMap_some, List.headD_nil]
  dsimp only
  rw [if_pos le_rfl]
  rfl

end Disk

end Lib
end Fuzznet
