/-
# Clears forgotten

`fzn_node_settings_forget_clears` of `node/settings.c`.  A clear stands to keep an older set
from putting its value back, and no longer than a set may still arrive: a clear learned before
`older_than` is removed, and one whose learning time is not known is given the current one.
A walk may not change the slot it walks, so it gathers rows in two batches of `FORGET_BATCH`,
and is made again while either came back full.

A store walks its rows in an order of its own, and the clock may read differently each time it
is read.  The forgetting ends, over any number of rows, and does to each row what it is to and
nothing else (`forget_clears`).
-/

import Fuzznet.Lib.Disk
import Fuzznet.Lib.Runs
import Fuzznet.Node.SettingsConverge

namespace Fuzznet
namespace Node

open Wire Lib State

/-- `FORGET_BATCH`. -/
def forgetBatch : ℕ := 256

/-- `struct forget_walk`, of what a walk gathers. -/
structure ForgetWalk where
  gone : List Bytes32
  stamp : List Bytes32

/-- `forget_walked`: whether the walk goes on, and what it has gathered. -/
def forgetWalked (ns : Settings) (olderThan : UInt64) (d : SettingsDisk) (w : ForgetWalk)
    (row : Bytes32) : Bool × ForgetWalk :=
  match (settingsLoad d row rowMax).bind rowRead with
  | none => (true, w)
  | some held =>
    match settingOpen ns.verify held.setting with
    | .error _ => (true, w)
    | .ok s =>
      if s.set then (true, w)
      else
        let w :=
          if held.learned = 0 then
            if w.stamp.length < forgetBatch then { w with stamp := w.stamp ++ [row] } else w
          else if held.learned < olderThan ∧ w.gone.length < forgetBatch then
            { w with gone := w.gone ++ [row] }
          else w
        (decide (w.gone.length < forgetBatch ∨ w.stamp.length < forgetBatch), w)

/-- How far a forgetting has come: the slot, how often the clock was read, and the clears
forgotten. -/
structure Forgetting where
  disk : SettingsDisk
  ticks : ℕ
  forgot : ℕ

/-- A gathered row written again, learned now. -/
def stampRow (now : ℕ → UInt64) (f : Forgetting) (row : Bytes32) : Bool × Forgetting :=
  match (settingsLoad f.disk row rowMax).bind rowRead with
  | none => (false, f)
  | some held =>
    let saved := rowSave f.disk row held.rank (now f.ticks) held.setting
    (saved.1, { f with disk := saved.2, ticks := f.ticks + 1 })

/-- A gathered row removed. -/
def goneRow (f : Forgetting) (row : Bytes32) : Bool × Forgetting :=
  let gone := f.disk.remove row
  (gone.1, { f with disk := gone.2, forgot := if gone.1 then f.forgot + 1 else f.forgot })

/-- One turn of the loop; an answer where it is the last. -/
def forgetTurn (ns : Settings) (order : List Bytes32 → List Bytes32) (now : ℕ → UInt64)
    (olderThan : UInt64) (f : Forgetting) : Option SettingsErr × Forgetting :=
  match f.disk.list some f.disk.rows.keys.length with
  | (none, d) => (some .backend, { f with disk := d })
  | (some rows, d) =>
    let w := (attempt (forgetWalked ns olderThan d) (order rows) ⟨[], []⟩).2
    let stamped := attempt (stampRow now) w.stamp { f with disk := d }
    if stamped.1 = false then (some .backend, stamped.2)
    else
      let gone := attempt goneRow w.gone stamped.2
      if gone.1 = false then (some .backend, gone.2)
      else if w.gone.length = forgetBatch ∨ w.stamp.length = forgetBatch then (none, gone.2)
      else (some .ok, gone.2)

/-- The loop, of so many turns at the most. -/
def forgetLoop (ns : Settings) (order : List Bytes32 → List Bytes32) (now : ℕ → UInt64)
    (olderThan : UInt64) : ℕ → Forgetting → Option (SettingsErr × Forgetting)
  | 0, _ => none
  | fuel + 1, f =>
    match forgetTurn ns order now olderThan f with
    | (some err, f') => some (err, f')
    | (none, f') => forgetLoop ns order now olderThan fuel f'

/-- `fzn_node_settings_forget_clears`, over a store that walks its rows in `order`. -/
def forgetClears (ns : Settings) (order : List Bytes32 → List Bytes32) (now : ℕ → UInt64)
    (olderThan : UInt64) (d : SettingsDisk) (fuel : ℕ) : Option (SettingsErr × Forgetting) :=
  forgetLoop ns order now olderThan fuel ⟨d, 0, 0⟩

/-! ## Clears -/

/-- What a row holds, where it is a clear. -/
def asClear (ns : Settings) (held : Bytes) : Option SettingRow :=
  if rowMax < held.length then none
  else (rowRead held).filter fun row =>
    (settingOpen ns.verify row.setting).toOption.any fun s => !s.set

/-- A clear to be forgotten, and one learned at a time not known. -/
def isOld (ns : Settings) (olderThan : UInt64) (held : Bytes) : Bool :=
  (asClear ns held).any fun c => decide (c.learned ≠ 0 ∧ c.learned < olderThan)
def isUnknown (ns : Settings) (held : Bytes) : Bool :=
  (asClear ns held).any fun c => decide (c.learned = 0)

section Clears

variable {ns : Settings} {olderThan : UInt64} {d : SettingsDisk} {row : Bytes32} {held : Bytes}
  {c : SettingRow}

theorem asClear_iff : asClear ns held = some c ↔ held.length ≤ rowMax ∧ rowRead held = some c ∧
    ∃ s, settingOpen ns.verify c.setting = .ok s ∧ s.set = false := by
  unfold asClear
  split
  next hlong => exact ⟨nofun, fun h => absurd h.1 (not_le.2 hlong)⟩
  next hle =>
    rw [Option.filter_eq_some_iff, and_iff_right (not_lt.1 hle)]
    refine and_congr_right fun _ => ?_
    cases settingOpen ns.verify c.setting with
    | error e => exact ⟨nofun, fun h => by cases h.choose_spec.1⟩
    | ok s =>
      constructor
      · intro h
        exact ⟨s, rfl, Eq.mp (Bool.not_eq_true' s.set) h⟩
      · rintro ⟨s', hs, hset⟩
        obtain rfl := Except.ok.inj hs
        exact Eq.mpr (Bool.not_eq_true' s.set) hset

/-- A row stamped is the same clear, learned then. -/
theorem asClear_stamped (h : asClear ns held = some c) (t : UInt64) :
    asClear ns (rowBytes c.rank t c.setting) = some ⟨c.rank, t, c.setting⟩ := by
  obtain ⟨-, -, s, hopen, hset⟩ := asClear_iff.1 h
  refine asClear_iff.2 ⟨?_, rowRead_rowBytes c.rank t (ne_nil_of_open hopen), s, hopen, hset⟩
  rw [length_rowBytes, rowMax]
  exact Nat.add_le_add_left (settingOpen_length hopen).2 _

/-! ## One walk -/

/-- The rows of a walk that hold a clear to be forgotten, and one not known. -/
def oldIn (ns : Settings) (olderThan : UInt64) (d : SettingsDisk) (rows : List Bytes32) :
    List Bytes32 := rows.filter fun row => (d.load row).any (isOld ns olderThan)
def unknownIn (ns : Settings) (d : SettingsDisk) (rows : List Bytes32) : List Bytes32 :=
  rows.filter fun row => (d.load row).any (isUnknown ns)

theorem oldIn_cons (row : Bytes32) (rows : List Bytes32) : oldIn ns olderThan d (row :: rows) =
    if (d.load row).any (isOld ns olderThan) then row :: oldIn ns olderThan d rows
    else oldIn ns olderThan d rows :=
  List.filter_cons

theorem unknownIn_cons (row : Bytes32) (rows : List Bytes32) : unknownIn ns d (row :: rows) =
    if (d.load row).any (isUnknown ns) then row :: unknownIn ns d rows else unknownIn ns d rows :=
  List.filter_cons

/-- A row gathered, where it is of the kind and there is room. -/
def gathered (p : Bool) (row : Bytes32) (l : List Bytes32) : List Bytes32 :=
  if p = true ∧ l.length < forgetBatch then l ++ [row] else l

theorem length_gathered {l : List Bytes32} (p : Bool) (row : Bytes32)
    (hl : l.length ≤ forgetBatch) : (gathered p row l).length ≤ forgetBatch := by
  unfold gathered
  split
  next h =>
    rw [List.length_append, List.length_singleton]
    exact h.2
  next => exact hl

theorem take_gathered {l : List Bytes32} (p : Bool) (row : Bytes32) (rest : List Bytes32)
    (hl : l.length ≤ forgetBatch) : (gathered p row l ++ rest).take forgetBatch =
      (l ++ if p = true then row :: rest else rest).take forgetBatch := by
  unfold gathered
  by_cases hp : p = true
  · rw [if_pos hp]
    split
    next => rw [List.append_assoc, List.singleton_append]
    next hfull =>
      have hlen : l.length = forgetBatch := hl.antisymm (not_lt.1 fun h => hfull ⟨hp, h⟩)
      rw [List.take_left' hlen, List.take_left' hlen]
  · rw [if_neg hp, if_neg fun h => hp h.1]

/-- **What a row is to the walk**: gathered by its kinds, and the last where neither batch has
room. -/
theorem forgetWalked_eq (ns : Settings) (olderThan : UInt64) (d : SettingsDisk) (w : ForgetWalk)
    (row : Bytes32) : ∃ go w', forgetWalked ns olderThan d w row = (go, w') ∧
      w'.gone = gathered ((d.load row).any (isOld ns olderThan)) row w.gone ∧
      w'.stamp = gathered ((d.load row).any (isUnknown ns)) row w.stamp ∧
      (go = false → forgetBatch ≤ w'.gone.length ∧ forgetBatch ≤ w'.stamp.length) := by
  unfold forgetWalked settingsLoad
  cases d.load row with
  | none => exact ⟨true, w, rfl, rfl, rfl, Bool.noConfusion⟩
  | some held =>
    rw [Option.filter_some, Option.any_some, Option.any_some, isOld, isUnknown]
    by_cases hle : held.length ≤ rowMax
    · rw [if_pos (decide_eq_true hle), Option.bind_some, asClear, if_neg (not_lt.2 hle)]
      cases rowRead held with
      | none => exact ⟨true, w, rfl, rfl, rfl, Bool.noConfusion⟩
      | some c =>
        rw [Option.filter_some]
        dsimp only
        cases settingOpen ns.verify c.setting with
        | error e => exact ⟨true, w, rfl, rfl, rfl, Bool.noConfusion⟩
        | ok s =>
          rw [show (Except.ok s : Except SettingErr Setting).toOption.any (fun s => !s.set) =
            !s.set from rfl]
          dsimp only
          cases s.set with
          | true => exact ⟨true, w, rfl, rfl, rfl, Bool.noConfusion⟩
          | false =>
            refine ⟨_, _, rfl, ?_, ?_, fun hgo => ?_⟩
            · unfold gathered
              grind
            · unfold gathered
              grind
            · simpa using hgo
    · rw [if_neg (by rw [decide_eq_true_eq]; exact hle), asClear, if_pos (not_le.1 hle)]
      exact ⟨true, w, rfl, rfl, rfl, Bool.noConfusion⟩

/-- **A walk gathers the first of each kind**, as many as a batch holds. -/
theorem forgetWalk_eq (rows : List Bytes32) (w : ForgetWalk)
    (hgone : w.gone.length ≤ forgetBatch) (hstamp : w.stamp.length ≤ forgetBatch) :
    (attempt (forgetWalked ns olderThan d) rows w).2 =
      ⟨(w.gone ++ oldIn ns olderThan d rows).take forgetBatch,
        (w.stamp ++ unknownIn ns d rows).take forgetBatch⟩ := by
  induction rows generalizing w with
  | nil =>
    rw [attempt, oldIn, unknownIn, List.filter_nil, List.filter_nil, List.append_nil,
      List.append_nil, List.take_of_length_le hgone, List.take_of_length_le hstamp]
  | cons row rows ih =>
    obtain ⟨go, w', heq, hgone', hstamp', hfull⟩ := forgetWalked_eq ns olderThan d w row
    rw [oldIn_cons, unknownIn_cons, ← take_gathered _ row _ hgone, ← take_gathered _ row _ hstamp,
      ← hgone', ← hstamp']
    have hle : w'.gone.length ≤ forgetBatch := hgone' ▸ length_gathered _ row hgone
    have hle' : w'.stamp.length ≤ forgetBatch := hstamp' ▸ length_gathered _ row hstamp
    cases go with
    | true => rw [attempt_cons_of_true heq, ih w' hle hle']
    | false =>
      obtain ⟨hg, hs⟩ := hfull rfl
      rw [attempt_cons_of_false heq, List.take_left' (hle.antisymm hg),
        List.take_left' (hle'.antisymm hs)]

/-! ## The rows gathered -/

/-- **Every row gathered is stamped**, and no other is touched. -/
theorem stamp_all {now : ℕ → UInt64} (rows : List Bytes32) (hnodup : rows.Nodup) {f : Forgetting}
    (hanswers : f.disk.outcomes = [])
    (hclears : ∀ row ∈ rows, ∃ c, (f.disk.load row).bind (asClear ns) = some c) :
    ∃ f', attempt (stampRow now) rows f = (true, f') ∧ f'.disk.outcomes = [] ∧
      f'.forgot = f.forgot ∧ f.ticks ≤ f'.ticks ∧
        (∀ row ∉ rows, f'.disk.load row = f.disk.load row) ∧
          ∀ row ∈ rows, ∃ c, (f.disk.load row).bind (asClear ns) = some c ∧
            ∃ i < f'.ticks, f'.disk.load row = some (rowBytes c.rank (now i) c.setting) := by
  induction rows generalizing f with
  | nil => exact ⟨f, rfl, hanswers, rfl, le_rfl, fun _ _ => rfl, nofun⟩
  | cons row rows ih =>
    obtain ⟨c, hc⟩ := hclears row List.mem_cons_self
    obtain ⟨held, hload, hclear⟩ := Option.bind_eq_some_iff.1 hc
    obtain ⟨hle, hread, s, hopen, hset⟩ := asClear_iff.1 hclear
    obtain ⟨f₁, hstep, hanswers₁, hforgot₁, hticks₁, hself, hother⟩ : ∃ f₁ : Forgetting,
        stampRow now f row = (true, f₁) ∧ f₁.disk.outcomes = [] ∧ f₁.forgot = f.forgot ∧
          f₁.ticks = f.ticks + 1 ∧
            f₁.disk.load row = some (rowBytes c.rank (now f.ticks) c.setting) ∧
              ∀ row', row' ≠ row → f₁.disk.load row' = f.disk.load row' := by
      refine ⟨⟨⟨f.disk.rows.insert row (rowBytes c.rank (now f.ticks) c.setting), []⟩,
        f.ticks + 1, f.forgot⟩, ?_, rfl, rfl, rfl, AList.lookup_insert _,
        fun row' hne => AList.lookup_insert_ne hne⟩
      unfold stampRow settingsLoad
      rw [hload, Option.filter_some, if_pos (decide_eq_true hle), Option.bind_some, hread]
      dsimp only
      rw [rowSave, if_neg (not_lt.2 (settingOpen_length hopen).2), Disk.save_of_nil hanswers]
    obtain ⟨hnot, hnodup'⟩ := List.nodup_cons.1 hnodup
    have hne : ∀ {row'}, row' ∈ rows → row' ≠ row := fun hmem heq => hnot (heq ▸ hmem)
    obtain ⟨f', hrun, hanswers', hforgot, hticks, hkept, hstamped⟩ := ih hnodup' hanswers₁
      fun row' hrow' => by
        rw [hother row' (hne hrow')]
        exact hclears row' (List.mem_cons_of_mem _ hrow')
    refine ⟨f', (attempt_cons_of_true hstep rows).trans hrun, hanswers', hforgot.trans hforgot₁,
      by omega, fun row' hrow' => ?_, fun row' hrow' => ?_⟩
    · rw [List.mem_cons, not_or] at hrow'
      exact (hkept row' hrow'.2).trans (hother row' hrow'.1)
    · rcases List.mem_cons.1 hrow' with rfl | hrow'
      · exact ⟨c, hc, f.ticks, by omega, (hkept row' hnot).trans hself⟩
      · rw [← hother row' (hne hrow')]
        exact hstamped row' hrow'

/-- **Every row gathered is removed**, and no other is touched. -/
theorem gone_all (rows : List Bytes32) {f : Forgetting} (hanswers : f.disk.outcomes = []) :
    ∃ f', attempt goneRow rows f = (true, f') ∧ f'.disk.outcomes = [] ∧
      f'.forgot = f.forgot + rows.length ∧ f'.ticks = f.ticks ∧
        (∀ row ∉ rows, f'.disk.load row = f.disk.load row) ∧
          ∀ row ∈ rows, f'.disk.load row = none := by
  induction rows generalizing f with
  | nil => exact ⟨f, rfl, hanswers, rfl, rfl, fun _ _ => rfl, nofun⟩
  | cons row rows ih =>
    have hstep : goneRow f row =
        (true, ⟨⟨f.disk.rows.erase row, []⟩, f.ticks, f.forgot + 1⟩) := by
      unfold goneRow
      rw [Disk.remove_of_nil hanswers]
      rfl
    obtain ⟨f', hrun, hanswers', hforgot, hticks, hkept, hgone⟩ :=
      @ih ⟨⟨f.disk.rows.erase row, []⟩, f.ticks, f.forgot + 1⟩ rfl
    dsimp only at hforgot hticks hkept
    refine ⟨f', (attempt_cons_of_true hstep rows).trans hrun, hanswers', ?_, hticks,
      fun row' hrow' => ?_, fun row' hrow' => ?_⟩
    · rw [hforgot, List.length_cons]
      omega
    · rw [List.mem_cons, not_or] at hrow'
      exact (hkept row' hrow'.2).trans (AList.lookup_erase_ne hrow'.1)
    · by_cases hmem : row' ∈ rows
      · exact hgone row' hmem
      · rcases List.mem_cons.1 hrow' with rfl | h
        · exact (hkept row' hmem).trans (AList.lookup_erase _ _)
        · exact absurd h hmem

/-! ## What becomes of a row -/

/-- What becomes of a row: it stays, or it is a clear learned at a time not known and is
stamped, or one to be forgotten and is gone. -/
def Handled (ns : Settings) (now : ℕ → UInt64) (olderThan : UInt64) (d d' : SettingsDisk)
    (ticks : ℕ) (row : Bytes32) : Prop :=
  d'.load row = d.load row ∨
    (∃ c, (d.load row).bind (asClear ns) = some c ∧ c.learned = 0 ∧
      ∃ i < ticks, d'.load row = some (rowBytes c.rank (now i) c.setting)) ∨
    ∃ c, (d.load row).bind (asClear ns) = some c ∧ c.learned ≠ 0 ∧ c.learned < olderThan ∧
      d'.load row = none

/-- Whether a row is one a walk gathers. -/
def isDue (ns : Settings) (olderThan : UInt64) (held : Bytes) : Bool :=
  isOld ns olderThan held || isUnknown ns held

theorem isOld_iff : isOld ns olderThan held = true ↔
    ∃ c, asClear ns held = some c ∧ c.learned ≠ 0 ∧ c.learned < olderThan := by
  rw [isOld, Option.any_eq_true]
  exact exists_congr fun c => and_congr_right fun _ => decide_eq_true_iff

theorem isUnknown_iff : isUnknown ns held = true ↔
    ∃ c, asClear ns held = some c ∧ c.learned = 0 := by
  rw [isUnknown, Option.any_eq_true]
  exact exists_congr fun c => and_congr_right fun _ => decide_eq_true_iff

theorem mem_old : row ∈ d.rowsWith (isOld ns olderThan) ↔
    ∃ c, (d.load row).bind (asClear ns) = some c ∧ c.learned ≠ 0 ∧ c.learned < olderThan := by
  rw [Disk.mem_rowsWith]
  simp only [isOld_iff, Option.bind_eq_some_iff]
  constructor
  · rintro ⟨b, hb, c, hc, h⟩
    exact ⟨c, ⟨b, hb, hc⟩, h⟩
  · rintro ⟨c, ⟨b, hb, hc⟩, h⟩
    exact ⟨b, hb, c, hc, h⟩

theorem mem_due : row ∈ d.rowsWith (isDue ns olderThan) ↔
    ∃ c, (d.load row).bind (asClear ns) = some c ∧ (c.learned ≠ 0 → c.learned < olderThan) := by
  rw [Disk.mem_rowsWith]
  simp only [isDue, Bool.or_eq_true, isOld_iff, isUnknown_iff, Option.bind_eq_some_iff]
  constructor
  · rintro ⟨b, hb, ⟨c, hc, -, hlt⟩ | ⟨c, hc, hzero⟩⟩
    · exact ⟨c, ⟨b, hb, hc⟩, fun _ => hlt⟩
    · exact ⟨c, ⟨b, hb, hc⟩, fun hne => absurd hzero hne⟩
  · rintro ⟨c, ⟨b, hb, hc⟩, h⟩
    by_cases hzero : c.learned = 0
    · exact ⟨b, hb, .inr ⟨c, hc, hzero⟩⟩
    · exact ⟨b, hb, .inl ⟨c, hc, hzero, h hzero⟩⟩

/-- **What a walk over every row gathers**: rows of each kind, and all of a kind whose batch is
not full. -/
theorem walk_gathers {rows : List Bytes32} (hnodup : rows.Nodup)
    (hall : ∀ row b, d.load row = some b → row ∈ rows) :
    ∃ G S, (attempt (forgetWalked ns olderThan d) rows ⟨[], []⟩).2 = ⟨G, S⟩ ∧ G.Nodup ∧ S.Nodup ∧
      (∀ row ∈ G, row ∈ d.rowsWith (isOld ns olderThan)) ∧
      (∀ row ∈ S, row ∈ d.rowsWith (isUnknown ns)) ∧
      (G.length ≠ forgetBatch → ∀ row ∈ d.rowsWith (isOld ns olderThan), row ∈ G) ∧
      (S.length ≠ forgetBatch → ∀ row ∈ d.rowsWith (isUnknown ns), row ∈ S) := by
  have hbatch : ∀ (p : Bytes → Bool) (L : List Bytes32),
      L = (rows.filter fun row => (d.load row).any p).take forgetBatch →
        L.Nodup ∧ (∀ row ∈ L, row ∈ d.rowsWith p) ∧
          (L.length ≠ forgetBatch → ∀ row ∈ d.rowsWith p, row ∈ L) := by
    rintro p L rfl
    refine ⟨(hnodup.filter _).sublist (List.take_sublist _ _), fun row hrow => ?_,
      fun hshort row hrow => ?_⟩
    · have hany := (List.mem_filter.1 (List.mem_of_mem_take hrow)).2
      exact Disk.mem_rowsWith.2 ((Option.any_eq_true _ _).1 hany)
    · obtain ⟨b, hb, hp⟩ := Disk.mem_rowsWith.1 hrow
      rw [List.length_take] at hshort
      rw [List.take_of_length_le (by omega), List.mem_filter]
      exact ⟨hall row b hb, (Option.any_eq_true _ _).2 ⟨b, hb, hp⟩⟩
  obtain ⟨hG, hG', hG''⟩ := hbatch (isOld ns olderThan) _ rfl
  obtain ⟨hS, hS', hS''⟩ := hbatch (isUnknown ns) _ rfl
  refine ⟨_, _, ?_, hG, hS, hG', hS', hG'', hS''⟩
  rw [forgetWalk_eq _ _ (Nat.zero_le _) (Nat.zero_le _)]
  rfl

theorem mem_unknown : row ∈ d.rowsWith (isUnknown ns) ↔
    ∃ c, (d.load row).bind (asClear ns) = some c ∧ c.learned = 0 := by
  rw [Disk.mem_rowsWith]
  simp only [isUnknown_iff, Option.bind_eq_some_iff]
  constructor
  · rintro ⟨b, hb, c, hc, h⟩
    exact ⟨c, ⟨b, hb, hc⟩, h⟩
  · rintro ⟨c, ⟨b, hb, hc⟩, h⟩
    exact ⟨b, hb, c, hc, h⟩

theorem mem_due_iff : row ∈ d.rowsWith (isDue ns olderThan) ↔
    row ∈ d.rowsWith (isOld ns olderThan) ∨ row ∈ d.rowsWith (isUnknown ns) := by
  simp only [Disk.mem_rowsWith, isDue, Bool.or_eq_true, and_or_left, exists_or]

variable {now : ℕ → UInt64} {d' d'' : SettingsDisk} {ticks ticks' : ℕ}

/-- The clear of a row stamped. -/
theorem stamped_clear (h : (d.load row).bind (asClear ns) = some c) (t : UInt64)
    (h' : d'.load row = some (rowBytes c.rank t c.setting)) :
    (d'.load row).bind (asClear ns) = some ⟨c.rank, t, c.setting⟩ := by
  obtain ⟨held, -, hclear⟩ := Option.bind_eq_some_iff.1 h
  rw [h', Option.bind_some, asClear_stamped hclear]

variable (hclock : ∀ i, now i ≠ 0 ∧ olderThan ≤ now i)
include hclock

theorem Handled.trans (h : Handled ns now olderThan d d' ticks row)
    (h' : Handled ns now olderThan d' d'' ticks' row) (hle : ticks ≤ ticks') :
    Handled ns now olderThan d d'' ticks' row := by
  rcases h with hsame | ⟨c, hc, hzero, i, hi, hload⟩ | ⟨c, hc, hne, hlt, hload⟩
  · unfold Handled at h'
    rw [hsame] at h'
    exact h'
  · have hclear := stamped_clear hc (now i) hload
    rcases h' with hsame' | ⟨c', hc', hzero', -⟩ | ⟨c', hc', -, hlt', -⟩
    · exact .inr (.inl ⟨c, hc, hzero, i, hi.trans_le hle, hsame'.trans hload⟩)
    · obtain rfl := Option.some.inj (hclear.symm.trans hc')
      exact absurd hzero' (hclock i).1
    · obtain rfl := Option.some.inj (hclear.symm.trans hc')
      exact absurd hlt' (UInt64.not_lt.2 (hclock i).2)
  · rcases h' with hsame' | ⟨c', hc', -⟩ | ⟨c', hc', -⟩
    · exact .inr (.inr ⟨c, hc, hne, hlt, hsame'.trans hload⟩)
    · rw [hload] at hc'
      cases hc'
    · rw [hload] at hc'
      cases hc'

/-- A row still to be gathered has not been handled. -/
theorem Handled.same_of_due (h : Handled ns now olderThan d d' ticks row)
    (hdue : row ∈ d'.rowsWith (isDue ns olderThan)) : d'.load row = d.load row := by
  obtain ⟨c', hc', hold⟩ := mem_due.1 hdue
  rcases h with hsame | ⟨c, hc, -, i, -, hload⟩ | ⟨-, -, -, -, hload⟩
  · exact hsame
  · obtain rfl := Option.some.inj ((stamped_clear hc (now i) hload).symm.trans hc')
    exact absurd (hold (hclock i).1) (UInt64.not_lt.2 (hclock i).2)
  · rw [hload] at hc'
    cases hc'

/-! ## A turn, and all of them -/

variable {order : List Bytes32 → List Bytes32} (horder : ∀ keys, (order keys).Perm keys)
include horder

/-- **What a turn does**: each row it gathers is handled, and either none is left to be gathered
or fewer are. -/
theorem forgetTurn_spec {f : Forgetting} (hanswers : f.disk.outcomes = []) :
    ∃ r f', forgetTurn ns order now olderThan f = (r, f') ∧ f'.disk.outcomes = [] ∧
      f.ticks ≤ f'.ticks ∧ (∀ row, Handled ns now olderThan f.disk f'.disk f'.ticks row) ∧
        f'.forgot + (f'.disk.rowsWith (isOld ns olderThan)).card =
          f.forgot + (f.disk.rowsWith (isOld ns olderThan)).card ∧
        (r = none ∧ (f'.disk.rowsWith (isDue ns olderThan)).card <
            (f.disk.rowsWith (isDue ns olderThan)).card ∨
          r = some .ok ∧ f'.disk.rowsWith (isDue ns olderThan) = ∅) := by
  have hperm := horder f.disk.rows.keys
  obtain ⟨G, S, hwalk, hGnodup, hSnodup, hG, hS, hGall, hSall⟩ :=
    @walk_gathers ns olderThan f.disk (order f.disk.rows.keys)
      (hperm.nodup_iff.2 f.disk.rows.keys_nodup)
      fun row b h => hperm.mem_iff.2 (Disk.mem_keys_iff.2 ⟨b, h⟩)
  have hapart : ∀ row ∈ G, row ∉ S := by
    intro row hrow hrow'
    obtain ⟨c, hc, hne, -⟩ := mem_old.1 (hG row hrow)
    obtain ⟨c', hc', hzero⟩ := mem_unknown.1 (hS row hrow')
    obtain rfl := Option.some.inj (hc.symm.trans hc')
    exact hne hzero
  obtain ⟨f₁, hstamp, hanswers₁, hforgot₁, hticks₁, hkept₁, hstamped⟩ :=
    @stamp_all ns now S hSnodup f hanswers
      fun row hrow => (mem_unknown.1 (hS row hrow)).imp fun _ h => h.1
  obtain ⟨f', hgone, hanswers', hforgot', hticks', hkept', hremoved⟩ := gone_all G hanswers₁
  have hturn : forgetTurn ns order now olderThan f =
      (if G.length = forgetBatch ∨ S.length = forgetBatch then none else some .ok, f') := by
    unfold forgetTurn
    rw [Disk.list_keys_of_nil hanswers]
    dsimp only
    rw [hwalk]
    dsimp only
    rw [hstamp]
    dsimp only
    rw [if_neg Bool.noConfusion, hgone]
    dsimp only
    rw [if_neg Bool.noConfusion]
    split <;> rfl
  have hsame : ∀ row, row ∉ G → row ∉ S → f'.disk.load row = f.disk.load row := fun row h h' =>
    (hkept' row h).trans (hkept₁ row h')
  have hhandled : ∀ row, Handled ns now olderThan f.disk f'.disk f'.ticks row := by
    intro row
    by_cases hrow : row ∈ G
    · obtain ⟨c, hc, hold⟩ := mem_old.1 (hG row hrow)
      exact .inr (.inr ⟨c, hc, hold.1, hold.2, hremoved row hrow⟩)
    · by_cases hrow' : row ∈ S
      · obtain ⟨c, hc, i, hi, hload⟩ := hstamped row hrow'
        obtain ⟨c', hc', hzero⟩ := mem_unknown.1 (hS row hrow')
        obtain rfl := Option.some.inj (hc.symm.trans hc')
        exact .inr (.inl ⟨c, hc, hzero, i, hticks' ▸ hi, (hkept' row hrow).trans hload⟩)
      · exact .inl (hsame row hrow hrow')
  -- a row gathered is due no more, and no row has become due
  have hnot : ∀ row, row ∈ G ∨ row ∈ S → row ∉ f'.disk.rowsWith (isDue ns olderThan) := by
    intro row hrow hdue
    have heq := (hhandled row).same_of_due hclock hdue
    obtain ⟨c, hc, -⟩ := mem_due.1 hdue
    by_cases hgathered : row ∈ G
    · rw [hremoved row hgathered] at hc
      cases hc
    · have hrow' := hrow.resolve_left hgathered
      obtain ⟨c', hc', i, -, hload⟩ := hstamped row hrow'
      obtain ⟨c'', hc'', hzero⟩ := mem_unknown.1 (hS row hrow')
      have hclear := stamped_clear hc' (now i) ((hkept' row hgathered).trans hload)
      rw [heq, hc''] at hclear
      obtain rfl := Option.some.inj hclear
      exact (hclock i).1 hzero
  have hsub : f'.disk.rowsWith (isDue ns olderThan) ⊆ f.disk.rowsWith (isDue ns olderThan) :=
    fun row hdue =>
      (Disk.mem_rowsWith_congr ((hhandled row).same_of_due hclock hdue)).1 hdue
  refine ⟨_, f', hturn, hanswers', by omega, hhandled, ?_, ?_⟩
  · have hold : f'.disk.rowsWith (isOld ns olderThan) =
        f.disk.rowsWith (isOld ns olderThan) \ G.toFinset := by
      ext row
      rw [Finset.mem_sdiff, List.mem_toFinset]
      constructor
      · intro h
        have hdue := mem_due_iff.2 (.inl h)
        refine ⟨(Disk.mem_rowsWith_congr ((hhandled row).same_of_due hclock hdue)).1 h, ?_⟩
        exact fun hmem => hnot row (.inl hmem) hdue
      · rintro ⟨h, hmem⟩
        have hmem' : row ∉ S := by
          intro hrow
          obtain ⟨c, hc, hne, -⟩ := mem_old.1 h
          obtain ⟨c', hc', hzero⟩ := mem_unknown.1 (hS row hrow)
          obtain rfl := Option.some.inj (hc.symm.trans hc')
          exact hne hzero
        exact (Disk.mem_rowsWith_congr (hsame row hmem hmem')).2 h
    have hcard := Finset.card_sdiff_add_card_eq_card
      (fun row hrow => hG row (List.mem_toFinset.1 hrow) :
        G.toFinset ⊆ f.disk.rowsWith (isOld ns olderThan))
    rw [← hold, List.toFinset_card_of_nodup hGnodup] at hcard
    omega
  · split
    next hfull =>
      refine .inl ⟨rfl, Finset.card_lt_card ⟨hsub, fun hback => ?_⟩⟩
      have hsome : ∃ row, row ∈ G ∨ row ∈ S := by
        rcases hfull with h | h
        · exact (List.exists_mem_of_length_pos (by rw [h]; decide)).imp fun _ => .inl
        · exact (List.exists_mem_of_length_pos (by rw [h]; decide)).imp fun _ => .inr
      obtain ⟨row, hrow⟩ := hsome
      exact hnot row hrow (hback (mem_due_iff.2 (hrow.imp (hG row) (hS row))))
    next hfull =>
      rw [not_or] at hfull
      refine .inr ⟨rfl, Finset.eq_empty_of_forall_notMem fun row hdue => ?_⟩
      exact hnot row ((mem_due_iff.1 (hsub hdue)).imp (hGall hfull.1 row) (hSall hfull.2 row)) hdue

/-- **The loop ends**, with each row handled and none left to be gathered. -/
theorem forgetLoop_returns {f : Forgetting} (hanswers : f.disk.outcomes = []) :
    ∃ f', Returns (fun fuel => forgetLoop ns order now olderThan fuel f) (.ok, f') ∧
      f.ticks ≤ f'.ticks ∧ (∀ row, Handled ns now olderThan f.disk f'.disk f'.ticks row) ∧
        f'.forgot = f.forgot + (f.disk.rowsWith (isOld ns olderThan)).card ∧
          f'.disk.rowsWith (isDue ns olderThan) = ∅ := by
  generalize hn : (f.disk.rowsWith (isDue ns olderThan)).card = n
  induction n using Nat.strong_induction_on generalizing f with
  | _ n ih =>
    obtain ⟨r, f₁, hturn, hanswers₁, hticks₁, hhandled₁, hcount₁, ⟨rfl, hfewer⟩ | ⟨rfl, hnone⟩⟩ :=
      forgetTurn_spec hclock horder hanswers
    · obtain ⟨f', hreturns, hticks, hhandled, hcount, hnone⟩ := ih _ (hn ▸ hfewer) hanswers₁ rfl
      refine ⟨f', Returns.succ hreturns fun fuel => ?_, hticks₁.trans hticks, fun row =>
        (hhandled₁ row).trans hclock (hhandled row) hticks, by omega, hnone⟩
      rw [forgetLoop, hturn]
    · have hold : f₁.disk.rowsWith (isOld ns olderThan) = ∅ := by
        refine Finset.eq_empty_of_forall_notMem fun row hrow => ?_
        have hdue := mem_due_iff.2 (.inl hrow)
        rw [hnone] at hdue
        exact absurd hdue (Finset.notMem_empty row)
      rw [hold, Finset.card_empty, Nat.add_zero] at hcount₁
      refine ⟨f₁, ⟨1, fun fuel hle => ?_⟩, hticks₁, hhandled₁, hcount₁, hnone⟩
      obtain ⟨fuel, rfl⟩ := Nat.exists_eq_add_of_le' hle
      show forgetLoop ns order now olderThan (fuel + 1) f = some (.ok, f₁)
      rw [forgetLoop, hturn]

end Clears

/-! ## What is left as it was -/

section Left

variable {ns : Settings} {d d' : SettingsDisk} {row : Bytes32} {c : SettingRow} {held : Bytes}

/-- A row of a setting is none of an object set aside, nor the count of them. -/
theorem byte_of_rowRead (h : rowRead held = some c) :
    held.getD 0 0 ≠ rowParked ∧ held.getD 0 0 ≠ rowParkedCount := by
  unfold rowRead at h
  obtain ⟨-, h⟩ := past_check h nofun
  split at h
  next hstamped =>
    constructor <;> intro hbyte <;> rw [hbyte] at hstamped <;> exact hstamped (by decide)
  next =>
    constructor <;> intro hbyte <;> rw [hbyte] at h <;> cases h

theorem loadParked_of_clear (h : (d.load row).bind (asClear ns) = some c) :
    loadParked d row = none := by
  obtain ⟨held, hload, hclear⟩ := Option.bind_eq_some_iff.1 h
  obtain ⟨-, hread, -⟩ := asClear_iff.1 hclear
  unfold loadParked settingsLoad
  rw [hload, Option.filter_some]
  split
  next => exact if_pos (.inr (byte_of_rowRead hread).1)
  next => rfl

theorem parkedCount_of_clear (hrow : parkedCountRow ns.hash = some row)
    (h : (d.load row).bind (asClear ns) = some c) : parkedCount ns.hash d = 0 := by
  obtain ⟨held, hload, hclear⟩ := Option.bind_eq_some_iff.1 h
  obtain ⟨-, hread, -⟩ := asClear_iff.1 hclear
  unfold parkedCount settingsLoad
  rw [hrow, Option.bind_some, hload, Option.filter_some]
  split
  next hnone => rfl
  next held' hsome =>
    split at hsome
    next =>
      obtain rfl := Option.some.inj hsome
      exact if_pos (.inr (byte_of_rowRead hread).2)
    next => cases hsome

/-- No clear sets a value. -/
theorem sets_of_clear {cell : Bytes32} {r : SettingRank}
    (hrow : settingRowOf ns.hash cell r = some row)
    (h : (d.load row).bind (asClear ns) = some c) : sets ns d cell r = none := by
  obtain ⟨held, hload, hclear⟩ := Option.bind_eq_some_iff.1 h
  obtain ⟨-, hread, s, hopen, hset⟩ := asClear_iff.1 hclear
  refine sets_eq_none.2 fun s' bytes hstanding => ?_
  obtain ⟨held', t, hload', -, hread', hopen', -⟩ := (standing_iff hrow).1 hstanding
  obtain rfl := Option.some.inj (hload.symm.trans hload')
  obtain rfl := Option.some.inj (hread.symm.trans hread')
  obtain rfl := Except.ok.inj (hopen.symm.trans hopen')
  exact hset

theorem sets_congr {cell : Bytes32} {r : SettingRank}
    (hrow : settingRowOf ns.hash cell r = some row) (h : d'.load row = d.load row) :
    sets ns d' cell r = sets ns d cell r := by
  unfold sets standing settingsLoad
  rw [hrow]
  dsimp only
  rw [h]

/-- What a row handled reads as, where it is not as it was: a clear before, and a clear or
nothing behind. -/
theorem Handled.clear_or_same {now : ℕ → UInt64} {olderThan : UInt64} {ticks : ℕ}
    (h : Handled ns now olderThan d d' ticks row) : d'.load row = d.load row ∨
      (∃ c, (d.load row).bind (asClear ns) = some c) ∧
        (d'.load row = none ∨ ∃ c, (d'.load row).bind (asClear ns) = some c) := by
  rcases h with hsame | ⟨c, hc, -, i, -, hload⟩ | ⟨c, hc, -, -, hload⟩
  · exact .inl hsame
  · exact .inr ⟨⟨c, hc⟩, .inr ⟨_, stamped_clear hc (now i) hload⟩⟩
  · exact .inr ⟨⟨c, hc⟩, .inl hload⟩

variable (h : ∀ row, d'.load row = d.load row ∨ (∃ c, (d.load row).bind (asClear ns) = some c) ∧
  (d'.load row = none ∨ ∃ c, (d'.load row).bind (asClear ns) = some c))
include h

theorem loadParked_kept (row : Bytes32) : loadParked d' row = loadParked d row := by
  rcases h row with hsame | ⟨⟨c, hc⟩, hnone | ⟨c', hc'⟩⟩
  · rw [loadParked, settingsLoad, hsame, loadParked, settingsLoad]
  · rw [loadParked_of_clear hc, loadParked, settingsLoad, hnone]
    rfl
  · rw [loadParked_of_clear hc, loadParked_of_clear hc']

theorem parkedCount_kept : parkedCount ns.hash d' = parkedCount ns.hash d := by
  cases hrow : parkedCountRow ns.hash with
  | none => rw [parkedCount, parkedCount, hrow]; rfl
  | some row =>
    rcases h row with hsame | ⟨⟨c, hc⟩, hnone | ⟨c', hc'⟩⟩
    · rw [parkedCount, parkedCount, hrow, Option.bind_some, Option.bind_some, settingsLoad, hsame,
        settingsLoad]
    · rw [parkedCount_of_clear hrow hc, parkedCount, hrow, Option.bind_some, settingsLoad, hnone]
      rfl
    · rw [parkedCount_of_clear hrow hc, parkedCount_of_clear hrow hc']

theorem settingsGet_kept (n : CellName) : settingsGet ns d' n = settingsGet ns d n := by
  have hsets : ∀ cell r, sets ns d' cell r = sets ns d cell r := by
    intro cell r
    cases hrow : settingRowOf ns.hash cell r with
    | none => rw [sets, standing, sets, standing, hrow]
    | some row =>
      rcases h row with hsame | ⟨⟨c, hc⟩, hnone | ⟨c', hc'⟩⟩
      · exact sets_congr hrow hsame
      · rw [sets_of_clear hrow hc, sets, standing, hrow]
        dsimp only
        rw [settingsLoad, hnone]
        rfl
      · rw [sets_of_clear hrow hc, sets_of_clear hrow hc']
  have hforce : ∀ cell, inForce ns d' cell = inForce ns d cell := fun cell =>
    congrArg (fun f => [SettingRank.root, .admin, .host].findSome? f) (funext (hsets cell))
  unfold settingsGet
  simp only [hforce]

end Left

/-- **Forgetting clears ends, and does what it is to and nothing else**: the clears learned
before `olderThan` are gone and counted, the ones learned at a time not known are learned now,
and every other row is as it was, and so is every value in force. -/
theorem forget_clears {ns : Settings} {order : List Bytes32 → List Bytes32} {now : ℕ → UInt64}
    {olderThan : UInt64} (horder : ∀ keys, (order keys).Perm keys)
    (hclock : ∀ i, now i ≠ 0 ∧ olderThan ≤ now i) {d : SettingsDisk} (hanswers : d.outcomes = []) :
    ∃ f, Returns (forgetClears ns order now olderThan d) (.ok, f) ∧
      f.forgot = (d.rowsWith (isOld ns olderThan)).card ∧
      (∀ row ∈ d.rowsWith (isOld ns olderThan), f.disk.load row = none) ∧
      (∀ row ∈ d.rowsWith (isUnknown ns), ∃ held c, d.load row = some held ∧
        asClear ns held = some c ∧
          ∃ i < f.ticks, f.disk.load row = some (rowBytes c.rank (now i) c.setting)) ∧
      (∀ row, row ∉ d.rowsWith (isOld ns olderThan) → row ∉ d.rowsWith (isUnknown ns) →
        f.disk.load row = d.load row) ∧
      (∀ row, loadParked f.disk row = loadParked d row) ∧
      parkedCount ns.hash f.disk = parkedCount ns.hash d ∧
      ∀ n, settingsGet ns f.disk n = settingsGet ns d n := by
  obtain ⟨f, hreturns, -, hhandled, hforgot, hnone⟩ :=
    @forgetLoop_returns ns olderThan now hclock order horder ⟨d, 0, 0⟩ hanswers
  dsimp only at hhandled hforgot
  have hleft := fun row => (hhandled row).clear_or_same
  have hdue : ∀ row, f.disk.load row = d.load row → row ∉ d.rowsWith (isDue ns olderThan) := by
    intro row hsame hmem
    rw [← Disk.mem_rowsWith_congr hsame, hnone] at hmem
    exact absurd hmem (Finset.notMem_empty row)
  refine ⟨f, hreturns, hforgot.trans (Nat.zero_add _), fun row hrow => ?_, fun row hrow => ?_,
    fun row hrow hrow' => ?_, loadParked_kept hleft, parkedCount_kept hleft,
    settingsGet_kept hleft⟩
  · rcases hhandled row with hsame | ⟨c, hc, hzero, -⟩ | ⟨-, -, -, -, hload⟩
    · exact absurd (mem_due_iff.2 (.inl hrow)) (hdue row hsame)
    · obtain ⟨c', hc', hne, -⟩ := mem_old.1 hrow
      obtain rfl := Option.some.inj (hc.symm.trans hc')
      exact absurd hzero hne
    · exact hload
  · rcases hhandled row with hsame | ⟨c, hc, -, i, hi, hload⟩ | ⟨c, hc, hne, -⟩
    · exact absurd (mem_due_iff.2 (.inr hrow)) (hdue row hsame)
    · obtain ⟨held, hheld, hclear⟩ := Option.bind_eq_some_iff.1 hc
      exact ⟨held, c, hheld, hclear, i, hi, hload⟩
    · obtain ⟨c', hc', hzero⟩ := mem_unknown.1 hrow
      obtain rfl := Option.some.inj (hc.symm.trans hc')
      exact absurd hzero hne
  · rcases hhandled row with hsame | ⟨c, hc, hzero, -⟩ | ⟨c, hc, hne, hlt, -⟩
    · exact hsame
    · exact absurd (mem_unknown.2 ⟨c, hc, hzero⟩) hrow'
    · exact absurd (mem_old.2 ⟨c, hc, hne, hlt⟩) hrow

/-- A slot of two clears: one learned at 5, the other at a time not known. -/
def twoClears : SettingsDisk :=
  ⟨(AList.insert 1 (rowBytes .root 5 (settingOf 7 2 false [])) ∅).insert 2
    (rowBytes .host 0 (settingOf 7 3 false [])), []⟩

/-- The first is forgotten at 9, of those learned before 7, and the second learned then. -/
theorem forget_clears_two : ∃ f, Returns (forgetClears oneNode id (fun _ => 9) 7 twoClears)
    (.ok, f) ∧ f.forgot = 1 ∧ f.disk.load 1 = none ∧
      f.disk.load 2 = some (rowBytes .host 9 (settingOf 7 3 false [])) := by
  obtain ⟨f, hreturns, hforgot, hgone, hstamped, -⟩ := @forget_clears oneNode id (fun _ => 9) 7
    (fun _ => List.Perm.refl _) (fun _ => by decide) twoClears rfl
  have hold : twoClears.rowsWith (isOld oneNode 7) = {1} := by
    decide +kernel
  have hunknown : twoClears.rowsWith (isUnknown oneNode) = {2} := by
    decide +kernel
  rw [hold] at hforgot hgone
  rw [hunknown] at hstamped
  obtain ⟨held, c, hload, hclear, -, -, hload'⟩ := hstamped 2 (Finset.mem_singleton_self 2)
  obtain rfl : held = rowBytes .host 0 (settingOf 7 3 false []) :=
    Option.some.inj (hload.symm.trans rfl)
  obtain rfl : c = ⟨.host, 0, settingOf 7 3 false []⟩ :=
    Option.some.inj (hclear.symm.trans (by decide +kernel))
  exact ⟨f, hreturns, hforgot, hgone 1 (Finset.mem_singleton_self 1), hload'⟩

end Node
end Fuzznet
