/-
# The settings converge

What a run of `fzn_node_settings_learn` leaves is of the set it was given alone.  Behind any
run over a store that does not fail the slot holds one row for each cell and rank that was
presented, and that row is of the greatest setting presented there (`LearnInv`), so what is
read of a cell is what is in force of the set (`settings_converge`), in whatever order and
however often it was presented.

Cells and rows are named by a hash, and none collides among the cells presented and asked
about (`cellInputs`).
-/

import Fuzznet.Node.Settings

namespace Fuzznet
namespace Node

open Wire Lib State
open Session (bytes32 bytes32_append_inj)

/-- A call of `fzn_node_settings_learn`, and when it is made. -/
structure Learning where
  bytes : Bytes
  rank : SettingRank
  now : UInt64
  deriving DecidableEq

/-- The slot behind a call. -/
def learnStep (ns : Settings) (d : SettingsDisk) (l : Learning) : SettingsDisk :=
  (settingsLearn { ns with now := l.now } d l.bytes l.rank).2

/-- The slot behind a run from an empty one, where no operation fails. -/
def learnRun (ns : Settings) (ls : List Learning) : SettingsDisk :=
  ls.foldl (learnStep ns) ⟨∅, []⟩

/-- What a run presents: the settings that open, each at its rank. -/
def presented (ns : Settings) (ls : List Learning) : Set Filed :=
  {p | ∃ l ∈ ls, settingOpen ns.verify l.bytes = .ok p.1 ∧ l.rank = p.2}

/-- What is hashed for the cells of `N` and their rows. -/
def cellInputs (hash : HashOps) (N : Set CellName) : Set Bytes :=
  {x | ∃ n ∈ N, x ∈ n.inputs hash ∨
    ∃ cell r, cellOf hash n = some cell ∧ x = settingRowInput cell r}

/-- The slot reads as the set `A`, for the cells of `N`. -/
structure Converged (ns : Settings) (N : Set CellName) (A : Set Filed) (d : SettingsDisk) :
    Prop where
  get : ∀ n ∈ N, ∀ v r,
    settingsGet ns d n = some (v, r) ↔ ∃ s, InForce A n r s ∧ s.value = v
  withdrawn : ∀ c r, GreatestFiled A (c, r) → c.set = false → ∀ v r',
    settingsGet ns d c.cellName = some (v, r') ↔
      ∃ s, InForce {q ∈ A | filedAt q ≠ (c.cellName, r)} c.cellName r' s ∧ s.value = v
  stays : ∀ c r v, (c, r) ∈ A → c.set = false → settingsGet ns d c.cellName = some (v, r) →
    ∃ s, (s, r) ∈ A ∧ s.cellName = c.cellName ∧ s.set = true ∧ s.value = v ∧
      c.version ≤ s.version
  each : ∀ n ∈ N, ((settingsEach ns d).filter fun p => p.1.cellName = n).map
    (fun p => (p.1.value, p.2)) = (settingsGet ns d n).toList

/-! ## Cells and rows are apart -/

theorem rank_byte_inj {r r' : SettingRank} (h : r.byte = r'.byte) : r = r' := by
  cases r <;> cases r' <;> first | rfl | exact absurd h (by decide)

theorem settingRowInput_inj {c c' : Bytes32} {r r' : SettingRank}
    (h : settingRowInput c r = settingRowInput c' r') : c = c' ∧ r = r' := by
  obtain ⟨hcell, hrank⟩ := bytes32_append_inj.1 (List.append_cancel_left h)
  exact ⟨hcell, rank_byte_inj (List.cons.inj hrank).1⟩

variable {H : Bytes → RecId}

section Apart

variable {hash : HashOps} {N : Set CellName} {n n' : CellName} {c c' row : Bytes32}
  {r r' : SettingRank}

theorem cellName_eq (hinj : hash.InjOn (cellInputs hash N)) (hn : n ∈ N) (hn' : n' ∈ N)
    (h : cellOf hash n = some c) (h' : cellOf hash n' = some c) : n = n' :=
  cellOf_inj hinj (fun _ hx => ⟨n, hn, .inl hx⟩) (fun _ hx => ⟨n', hn', .inl hx⟩) h h'

theorem cellRow_eq (hinj : hash.InjOn (cellInputs hash N)) (hn : n ∈ N) (hn' : n' ∈ N)
    (h : cellOf hash n = some c) (h' : cellOf hash n' = some c')
    (hrow : settingRowOf hash c r = some row) (hrow' : settingRowOf hash c' r' = some row) :
    c = c' ∧ r = r' :=
  settingRowInput_inj (hinj _ ⟨n, hn, .inr ⟨c, r, h, rfl⟩⟩ _ ⟨n', hn', .inr ⟨c', r', h', rfl⟩⟩ row
    hrow hrow')

/-- A hash that refuses nothing has a cell for every name that is one. -/
theorem cellOf_answers (hhash : hash = answering H) (hkey : settingKeyOk n.key = true)
    (hscope : n.scope ≠ .hostPrivate) : ∃ c, cellOf hash n = some c := by
  subst hhash
  unfold cellOf scopeSubject
  rw [if_neg (by rw [hkey]; exact Bool.noConfusion), if_neg hscope]
  exact ⟨_, rfl⟩

theorem settingCell_answers (hhash : hash = answering H) {ops : SignOps} {bytes : Bytes}
    {s : Setting} (hopen : settingOpen ops bytes = .ok s) : ∃ c, settingCell hash s = some c :=
  cellOf_answers hhash (settingOpen_named hopen).1 (settingOpen_named hopen).2

theorem settingRowOf_answers (hhash : hash = answering H) (c : Bytes32) (r : SettingRank) :
    ∃ row, settingRowOf hash c r = some row :=
  ⟨H (settingRowInput c r), by rw [hhash]; rfl⟩

end Apart

/-- A call over a store that does not fail writes the row where nothing is in its way. -/
theorem learnStep_eq {ns : Settings} {d : SettingsDisk} (hanswers : d.outcomes = [])
    {l : Learning} {s : Setting} {c row : Bytes32}
    (hopen : settingOpen ns.verify l.bytes = .ok s) (hcell : settingCell ns.hash s = some c)
    (hrow : settingRowOf ns.hash c l.rank = some row) :
    learnStep ns d l = if metBy (standing ns d c l.rank) s l.bytes = none then
      ⟨d.rows.insert row (rowBytes l.rank l.now l.bytes), []⟩ else d :=
  @settingsLearn_eq { ns with now := l.now } d hanswers l.bytes s c row l.rank hopen hcell hrow

/-! ## One row for each cell and rank -/

/-- A row under its own name is of a setting at a rank. -/
def HoldsRow (ns : Settings) (row : Bytes32) (held : Bytes) (s : Setting) (r : SettingRank) :
    Prop :=
  ∃ t bytes c, settingOpen ns.verify bytes = .ok s ∧ settingCell ns.hash s = some c ∧
    settingRowOf ns.hash c r = some row ∧ held = rowBytes r t bytes

/-- What the runs keep: every row is of something in `A`, and nothing in `A` is above the row
of its cell and rank. -/
structure LearnInv (ns : Settings) (A : Set Filed) (d : SettingsDisk) : Prop where
  filed : ∀ row held, d.load row = some held → ∃ p ∈ A, HoldsRow ns row held p.1 p.2
  greatest : ∀ p ∈ A, ∃ row held s, d.load row = some held ∧ HoldsRow ns row held s p.2 ∧
    s.cellName = p.1.cellName ∧ p.1.place ≤ s.place

section Rows

variable {ns : Settings} {N : Set CellName} {A : Set Filed} {d : SettingsDisk} {n : CellName}
  {c row : Bytes32} {r : SettingRank} {s s' : Setting} {held bytes : Bytes}

theorem ne_nil_of_open {ops : SignOps} (hopen : settingOpen ops bytes = .ok s) : bytes ≠ [] := by
  rintro rfl
  exact absurd (settingOpen_length hopen).1 (by decide)

/-- A row says what it is of. -/
theorem HoldsRow.read (h : HoldsRow ns row held s r) : ∃ t bytes c,
    rowRead held = some ⟨r, t, bytes⟩ ∧ settingOpen ns.verify bytes = .ok s ∧
      settingCell ns.hash s = some c ∧ settingRowOf ns.hash c r = some row ∧
        held.length ≤ rowMax := by
  obtain ⟨t, bytes, c, hopen, hcell, hrow, rfl⟩ := h
  refine ⟨t, bytes, c, rowRead_rowBytes r t (ne_nil_of_open hopen), hopen, hcell, hrow, ?_⟩
  rw [length_rowBytes, rowMax]
  exact Nat.add_le_add_left (settingOpen_length hopen).2 _

theorem HoldsRow.eq (h : HoldsRow ns row held s r) {r' : SettingRank}
    (h' : HoldsRow ns row held s' r') : s = s' ∧ r = r' := by
  obtain ⟨t, bytes, c, hread, hopen, -⟩ := h.read
  obtain ⟨t', bytes', c', hread', hopen', -⟩ := h'.read
  obtain ⟨rfl, -, rfl⟩ := SettingRow.mk.inj (Option.some.inj (hread.symm.trans hread'))
  exact ⟨Except.ok.inj (hopen.symm.trans hopen'), rfl⟩

/-- What stands for a cell is the row of its name. -/
theorem LearnInv.standing_holds (hinv : LearnInv ns A d)
    (hrow : settingRowOf ns.hash c r = some row) (h : standing ns d c r = some (s, bytes)) :
    ∃ held, d.load row = some held ∧ HoldsRow ns row held s r ∧ (s, r) ∈ A ∧
      settingCell ns.hash s = some c ∧ settingOpen ns.verify bytes = .ok s := by
  obtain ⟨held, t, hload, -, hread, hopen, hcell, -⟩ := (standing_iff hrow).1 h
  obtain ⟨p, hp, hholds⟩ := hinv.filed row held hload
  obtain ⟨t', bytes', c', hread', hopen', -⟩ := hholds.read
  obtain ⟨hrank, -, rfl⟩ := SettingRow.mk.inj (Option.some.inj (hread.symm.trans hread'))
  have hs : s = p.1 := Except.ok.inj (hopen.symm.trans hopen')
  have hpair : (s, r) = p := Prod.ext hs hrank
  refine ⟨held, hload, ?_, hpair ▸ hp, hcell, hopen⟩
  rw [hs, hrank]
  exact hholds

/-- The row of a cell and a rank stands, where no act has fallen. -/
theorem standing_of_holds (hstands : ∀ s r bytes, actStands ns s r bytes = true)
    (hcell : settingCell ns.hash s = some c) (hload : d.load row = some held)
    (h : HoldsRow ns row held s r) : ∃ bytes, standing ns d c r = some (s, bytes) := by
  obtain ⟨t, bytes, c', hread, hopen, hcell', hrow, hle⟩ := h.read
  obtain rfl := Option.some.inj (hcell.symm.trans hcell')
  exact ⟨bytes, (standing_iff hrow).2
    ⟨held, t, hload, hle, hread, hopen, hcell, hstands s r bytes⟩⟩

/-- Something stands for every cell and rank something is filed at. -/
theorem LearnInv.standing_some (hinv : LearnInv ns A d)
    (hstands : ∀ s r bytes, actStands ns s r bytes = true) {p : Filed} (hp : p ∈ A)
    (hcell : cellOf ns.hash p.1.cellName = some c) :
    ∃ s bytes, standing ns d c p.2 = some (s, bytes) := by
  obtain ⟨row, held, s, hload, hholds, hname, -⟩ := hinv.greatest p hp
  have hcell' : settingCell ns.hash s = some c := by
    rw [settingCell, hname, hcell]
  exact ⟨s, standing_of_holds hstands hcell' hload hholds⟩

variable (hN : ∀ p ∈ A, p.1.cellName ∈ N) (hinj : ns.hash.InjOn (cellInputs ns.hash N))
include hN hinj

/-- **What stands for a cell at a rank is the greatest of it.** -/
theorem LearnInv.standing_greatest (hinv : LearnInv ns A d) (hn : n ∈ N)
    (hcell : cellOf ns.hash n = some c) (hrow : settingRowOf ns.hash c r = some row)
    (h : standing ns d c r = some (s, bytes)) : GreatestFiled A (s, r) ∧ s.cellName = n := by
  obtain ⟨held, hload, hholds, hmem, hcell', -⟩ := hinv.standing_holds hrow h
  have hname : s.cellName = n := cellName_eq hinj (hN _ hmem) hn hcell' hcell
  refine ⟨⟨hmem, fun q hq hqs => ?_⟩, hname⟩
  obtain ⟨row', held', s', hload', hholds', hname', hle⟩ := hinv.greatest q hq
  obtain ⟨hqcell, hqrank⟩ := Prod.mk.inj hqs
  obtain ⟨-, -, c', -, -, hcell'', hrow', -⟩ := hholds'.read
  have hc : c' = c := by
    have hsame : s'.cellName = n := hname'.trans (hqcell.trans hname)
    rw [settingCell, hsame, hcell] at hcell''
    exact (Option.some.inj hcell'').symm
  have hqr : q.2 = r := hqrank
  rw [hc, hqr, hrow] at hrow'
  obtain rfl := Option.some.inj hrow'
  obtain rfl := Option.some.inj (hload.symm.trans hload')
  exact (hholds.eq hholds').1 ▸ hle

/-! ## Runs -/

/-- **A setting learned keeps the slot the greatest of what was presented.** -/
theorem LearnInv.learn (hinv : LearnInv ns A d) (hhash : ns.hash = answering H)
    (hstands : ∀ s r bytes, actStands ns s r bytes = true) (hanswers : d.outcomes = [])
    {l : Learning} (hopen : settingOpen ns.verify l.bytes = .ok s) (hs : s.cellName ∈ N) :
    LearnInv ns (insert (s, l.rank) A) (learnStep ns d l) := by
  obtain ⟨c, hcell⟩ := settingCell_answers hhash hopen
  obtain ⟨row, hrow⟩ := settingRowOf_answers hhash c l.rank
  have hfiled : ∀ row held, d.load row = some held →
      ∃ p ∈ insert (s, l.rank) A, HoldsRow ns row held p.1 p.2 := by
    intro row' held' hload
    obtain ⟨p, hp, hholds⟩ := hinv.filed row' held' hload
    exact ⟨p, Set.mem_insert_of_mem _ hp, hholds⟩
  rw [learnStep_eq hanswers hopen hcell hrow]
  split
  next hfree =>
    -- the row is written: what it takes the place of is below it
    have hbelow : ∀ p ∈ A, filedAt p = (s.cellName, l.rank) → p.1.place ≤ s.place := by
      intro p hp hat
      obtain ⟨hname, hrank⟩ := Prod.mk.inj hat
      have hpcell : cellOf ns.hash p.1.cellName = some c := by
        rw [show p.1.cellName = s.cellName from hname]
        exact hcell
      obtain ⟨s', bytes', hstanding⟩ := hinv.standing_some hstands hp hpcell
      rw [show p.2 = l.rank from hrank] at hstanding
      have hgreatest := hinv.standing_greatest hN hinj hs hcell hrow hstanding
      have hle := hgreatest.1.le p hp (Prod.ext (hname.trans hgreatest.2.symm) hrank)
      rw [hstanding, metBy_eq_none_iff] at hfree
      exact hle.trans hfree.2.le
    have hholds : HoldsRow ns row (rowBytes l.rank l.now l.bytes) s l.rank :=
      ⟨l.now, l.bytes, c, hopen, hcell, hrow, rfl⟩
    have hself : (⟨d.rows.insert row (rowBytes l.rank l.now l.bytes), []⟩ : SettingsDisk).load row =
        some (rowBytes l.rank l.now l.bytes) := AList.lookup_insert _
    have hother : ∀ {row'}, row' ≠ row →
        (⟨d.rows.insert row (rowBytes l.rank l.now l.bytes), []⟩ : SettingsDisk).load row' =
          d.load row' := fun hne => AList.lookup_insert_ne hne
    constructor
    · intro row' held' hload
      rcases eq_or_ne row' row with rfl | hne
      · obtain rfl := Option.some.inj (hself.symm.trans hload)
        exact ⟨(s, l.rank), Set.mem_insert _ _, hholds⟩
      · exact hfiled row' held' (hother hne ▸ hload)
    · rintro p (rfl | hp)
      · exact ⟨row, _, s, hself, hholds, rfl, le_rfl⟩
      · obtain ⟨row', held', s', hload, hholds', hname, hle⟩ := hinv.greatest p hp
        rcases eq_or_ne row' row with rfl | hne
        · obtain ⟨-, -, c', -, -, hcell', hrow', -⟩ := hholds'.read
          have hs' : s'.cellName ∈ N := hname ▸ hN p hp
          obtain ⟨rfl, hrank⟩ := cellRow_eq hinj hs' hs hcell' hcell hrow' hrow
          have hsame : s'.cellName = s.cellName := cellName_eq hinj hs' hs hcell' hcell
          have hpname := hname.symm.trans hsame
          refine ⟨row', _, s, hself, hrank ▸ hholds, hpname.symm, hbelow p hp ?_⟩
          exact Prod.ext hpname hrank
        · exact ⟨row', held', s', (hother hne).trans hload, hholds', hname, hle⟩
  next hmet =>
    -- the row stays: what is presented is it again, or below it
    refine ⟨hfiled, ?_⟩
    rintro p (rfl | hp)
    · cases hstanding : standing ns d c l.rank with
      | none => rw [hstanding] at hmet; exact absurd rfl hmet
      | some top =>
        obtain ⟨s', bytes'⟩ := top
        rw [hstanding, metBy_eq_none_iff, not_and_or, not_not, not_lt] at hmet
        obtain ⟨held, hload, hholds, hmem, hcell', hopen'⟩ := hinv.standing_holds hrow hstanding
        have hname := cellName_eq hinj (hN _ hmem) hs hcell' hcell
        refine ⟨row, held, s', hload, hholds, hname, ?_⟩
        rcases hmet with heq | hle
        · rw [heq, hopen] at hopen'
          exact (Except.ok.inj hopen') ▸ le_rfl
        · exact hle
    · exact hinv.greatest p hp

end Rows

section Run

variable {ns : Settings} {H : Bytes → RecId} {N : Set CellName}

theorem presented_append (ns : Settings) (ls : List Learning) (l : Learning) :
    presented ns (ls ++ [l]) =
      {p | p ∈ presented ns ls ∨ settingOpen ns.verify l.bytes = .ok p.1 ∧ l.rank = p.2} := by
  ext p
  constructor
  · rintro ⟨l', hl', hp⟩
    rcases List.mem_append.1 hl' with hl' | hl'
    · exact .inl ⟨l', hl', hp⟩
    · exact .inr (List.mem_singleton.1 hl' ▸ hp)
  · rintro (⟨l', hl', hp⟩ | hp)
    · exact ⟨l', List.mem_append_left _ hl', hp⟩
    · exact ⟨l, List.mem_append_right _ (List.mem_singleton_self l), hp⟩

theorem presented_mono {ls ls' : List Learning}
    (h : ∀ l ∈ ls, ∃ l' ∈ ls', l.bytes = l'.bytes ∧ l.rank = l'.rank) :
    presented ns ls ⊆ presented ns ls' := by
  rintro p ⟨l, hl, hopen, hrank⟩
  obtain ⟨l', hl', hbytes, hsame⟩ := h l hl
  exact ⟨l', hl', hbytes ▸ hopen, hsame ▸ hrank⟩

/-- **Behind a run every row is the greatest of what was presented.** -/
theorem learnInv_run (hhash : ns.hash = answering H)
    (hstands : ∀ s r bytes, actStands ns s r bytes = true)
    (hinj : ns.hash.InjOn (cellInputs ns.hash N)) (ls : List Learning)
    (hN : ∀ p ∈ presented ns ls, p.1.cellName ∈ N) :
    LearnInv ns (presented ns ls) (learnRun ns ls) ∧ (learnRun ns ls).outcomes = [] := by
  induction ls using List.reverseRecOn with
  | nil =>
    refine ⟨⟨fun row held hload => ?_, fun p hp => ?_⟩, rfl⟩
    · cases hload
    · obtain ⟨l, hl, -⟩ := hp
      cases hl
  | append_singleton ls l ih =>
    have hrun : learnRun ns (ls ++ [l]) = learnStep ns (learnRun ns ls) l :=
      List.foldl_append
    rw [presented_append] at hN
    obtain ⟨hinv, hanswers⟩ := ih fun p hp => hN p (.inl hp)
    rw [hrun, presented_append]
    cases hopen : settingOpen ns.verify l.bytes with
    | error e =>
      have hsame : learnStep ns (learnRun ns ls) l = learnRun ns ls := by
        unfold learnStep settingsLearn
        rw [hopen]
      have hset : {p | p ∈ presented ns ls ∨ Except.error e = .ok p.1 ∧ l.rank = p.2} =
          presented ns ls := by
        ext p
        exact or_iff_left fun h => by cases h.1
      rw [hsame, hset]
      exact ⟨hinv, hanswers⟩
    | ok s =>
      have hset : {p | p ∈ presented ns ls ∨ Except.ok s = (.ok p.1 : Except SettingErr _) ∧
          l.rank = p.2} = insert (s, l.rank) (presented ns ls) := by
        ext p
        constructor
        · rintro (hp | ⟨hs, hrank⟩)
          · exact .inr hp
          · exact .inl (Prod.ext (Except.ok.inj hs).symm hrank.symm)
        · rintro (rfl | hp)
          · exact .inr ⟨rfl, rfl⟩
          · exact .inl hp
      rw [hset]
      have hs : s.cellName ∈ N := hN (s, l.rank) (.inr ⟨hopen, rfl⟩)
      refine ⟨hinv.learn (fun p hp => hN p (.inl hp)) hinj hhash hstands hanswers hopen hs, ?_⟩
      obtain ⟨c, hcell⟩ := settingCell_answers hhash hopen
      obtain ⟨row, hrow⟩ := settingRowOf_answers hhash c l.rank
      rw [learnStep_eq hanswers hopen hcell hrow]
      split
      · rfl
      · exact hanswers

end Run

/-! ## What is read -/

section Reads

variable {ns : Settings} {A : Set Filed} {d : SettingsDisk} {n : CellName} {c : Bytes32}
  {r : SettingRank} {s : Setting}

theorem sets_eq_some {x : SettingRank × Setting} : sets ns d c r = some x ↔
    x.1 = r ∧ x.2.set = true ∧ ∃ bytes, standing ns d c r = some (x.2, bytes) := by
  unfold sets
  rw [Option.bind_eq_some_iff]
  constructor
  · rintro ⟨⟨s, bytes⟩, hstanding, hset⟩
    split at hset
    next htrue =>
      obtain rfl := Option.some.inj hset
      exact ⟨rfl, htrue, bytes, hstanding⟩
    next => cases hset
  · rintro ⟨rfl, hset, bytes, hstanding⟩
    exact ⟨(x.2, bytes), hstanding, if_pos hset⟩

theorem sets_eq_none : sets ns d c r = none ↔
    ∀ s bytes, standing ns d c r = some (s, bytes) → s.set = false := by
  rw [Option.eq_none_iff_forall_ne_some]
  constructor
  · intro h s bytes hstanding
    refine Bool.eq_false_iff.2 fun hset => h (r, s) (sets_eq_some.2 ⟨rfl, hset, bytes, hstanding⟩)
  · intro h x hx
    obtain ⟨-, hset, bytes, hstanding⟩ := sets_eq_some.1 hx
    exact Bool.noConfusion (hset.symm.trans (h x.2 bytes hstanding))

/-- **The rank in force is the highest whose standing setting sets a value.** -/
theorem inForce_iff : inForce ns d c = some (r, s) ↔
    s.set = true ∧ (∃ bytes, standing ns d c r = some (s, bytes)) ∧
      ∀ r' s' bytes, r.Below r' → standing ns d c r' = some (s', bytes) → s'.set = false := by
  unfold inForce
  constructor
  · intro h
    obtain ⟨above, r', below, hl, hfound, hup⟩ := List.findSome?_eq_some_iff.1 h
    obtain ⟨rfl, hset, hstanding⟩ := sets_eq_some.1 hfound
    refine ⟨hset, hstanding, fun r' s' bytes hlt => sets_eq_none.1 (hup r' ?_) s' bytes⟩
    -- The ranks are asked from the highest down, so a rank above stands in front.
    have hord : [SettingRank.root, .admin, .host].Pairwise fun a b => b.Below a := by decide
    have hin : r' ∈ [SettingRank.root, .admin, .host] := by cases r' <;> decide
    rw [hl, List.pairwise_append, List.pairwise_cons] at hord
    rw [hl, List.mem_append, List.mem_cons] at hin
    rcases hin with habove | rfl | hbelow
    · exact habove
    · exact absurd hlt (UInt8.lt_irrefl _)
    · exact absurd hlt (UInt8.lt_asymm (hord.2.1.1 r' hbelow))
  · rintro ⟨hset, hstanding, habove⟩
    have hthis : sets ns d c r = some (r, s) := sets_eq_some.2 ⟨rfl, hset, hstanding⟩
    have hup : ∀ r', r.Below r' → sets ns d c r' = none := fun r' hlt =>
      sets_eq_none.2 fun s' bytes => habove r' s' bytes hlt
    rw [List.findSome?_cons, List.findSome?_cons, List.findSome?_cons, List.findSome?_nil]
    cases r with
    | root => rw [hthis]
    | admin => rw [hup .root (by decide), hthis]
    | host => rw [hup .root (by decide), hup .admin (by decide), hthis]

/-- A list read in one place at the most comes to what is read there. -/
theorem filterMap_eq_toList {α β : Type*} {l : List α} (hl : l.Nodup) {f : α → Option β}
    {o : Option β} (honly : ∀ a ∈ l, ∀ b, f a = some b → o = some b)
    (hone : ∀ a ∈ l, ∀ a' ∈ l, f a ≠ none → f a' ≠ none → a = a')
    (hsome : ∀ b, o = some b → ∃ a ∈ l, f a = some b) : l.filterMap f = o.toList := by
  cases o with
  | none =>
    rw [Option.toList_none, List.filterMap_eq_nil_iff]
    intro a ha
    cases hfa : f a with
    | none => rfl
    | some b => cases honly a ha b hfa
  | some b =>
    obtain ⟨a, ha, hfa⟩ := hsome b rfl
    obtain ⟨l₁, l₂, rfl⟩ := List.append_of_mem ha
    have hne : f a ≠ none := by
      rw [hfa]
      exact Option.some_ne_none b
    have hout : ∀ a' ∈ l₁ ++ l₂, f a' = none := by
      intro a' ha'
      by_contra hne'
      have hmem : a' ∈ l₁ ++ a :: l₂ := by
        rw [List.mem_append, List.mem_cons]
        rcases List.mem_append.1 ha' with h | h
        · exact .inl h
        · exact .inr (.inr h)
      obtain rfl := hone a' hmem a ha hne' hne
      exact (List.nodup_middle.1 hl).notMem ha'
    rw [List.filterMap_append, List.filterMap_cons_some hfa,
      List.filterMap_eq_nil_iff.2 fun a' h => hout a' (List.mem_append_left _ h),
      List.filterMap_eq_nil_iff.2 fun a' h => hout a' (List.mem_append_right _ h)]
    rfl

/-- A row walked reports the setting in force of its cell, where it is the row of it. -/
theorem eachWalked_iff (hstands : ∀ s r bytes, actStands ns s r bytes = true) {row : Bytes32} :
    eachWalked ns d row = some (s, r) ↔ ∃ c, settingCell ns.hash s = some c ∧
      settingRowOf ns.hash c r = some row ∧ inForce ns d c = some (r, s) := by
  constructor
  · intro h
    unfold eachWalked at h
    cases hread : (settingsLoad d row rowMax).bind rowRead with
    | none => rw [hread] at h; cases h
    | some parts =>
      rw [hread] at h
      dsimp only at h
      obtain ⟨held, hload, hparts⟩ := Option.bind_eq_some_iff.1 hread
      obtain ⟨hheld, hle⟩ := Option.filter_eq_some_iff.1 hload
      split at h
      next => cases h
      next s' hopen =>
        obtain ⟨hset, h⟩ := past_check h nofun
        cases hcell : settingCell ns.hash s' with
        | none => rw [hcell] at h; cases h
        | some c =>
          rw [hcell] at h
          dsimp only at h
          split at h
          next hall =>
            obtain ⟨rfl, rfl⟩ := Prod.mk.inj (Option.some.inj h)
            obtain ⟨⟨r', s''⟩, hforce, rfl⟩ := Option.map_eq_some_iff.1 hall.2
            obtain ⟨-, ⟨bytes, hstanding⟩, -⟩ := inForce_iff.1 hforce
            have hthis := (standing_iff hall.1).2 ⟨held, parts.learned, hheld,
              of_decide_eq_true hle, hparts, hopen, hcell, hstands _ _ _⟩
            have hs := (Prod.mk.inj (Option.some.inj (hthis.symm.trans hstanding))).1
            exact ⟨c, hcell, hall.1, hs ▸ hforce⟩
          next => cases h
  · rintro ⟨c, hcell, hrow, hforce⟩
    obtain ⟨hset, ⟨bytes, hstanding⟩, -⟩ := inForce_iff.1 hforce
    obtain ⟨held, t, hload, hle, hread, hopen, -⟩ := (standing_iff hrow).1 hstanding
    unfold eachWalked settingsLoad
    rw [hload, Option.filter_some, if_pos (decide_eq_true hle), Option.bind_some, hread]
    dsimp only
    rw [hopen]
    dsimp only
    rw [if_neg (by rw [hset]; exact Bool.noConfusion), hcell]
    dsimp only
    rw [if_pos ⟨hrow, by rw [hforce]; rfl⟩]

variable {H : Bytes → RecId} {N : Set CellName} (hinv : LearnInv ns A d)
  (hhash : ns.hash = answering H) (hstands : ∀ s r bytes, actStands ns s r bytes = true)
  (hN : ∀ p ∈ A, p.1.cellName ∈ N) (hinj : ns.hash.InjOn (cellInputs ns.hash N))
include hinv hhash hstands hN hinj

/-- **What is read in force of a cell is what is in force of the set.** -/
theorem LearnInv.inForce_value (hn : n ∈ N) (hcell : cellOf ns.hash n = some c) {v : Bytes} :
    (∃ s, inForce ns d c = some (r, s) ∧ s.value = v) ↔ ∃ s, InForce A n r s ∧ s.value = v := by
  have hread : ∀ {r s bytes}, standing ns d c r = some (s, bytes) →
      GreatestFiled A (s, r) ∧ s.cellName = n := by
    intro r s bytes hstanding
    obtain ⟨row, hrow⟩ := settingRowOf_answers hhash c r
    exact hinv.standing_greatest hN hinj hn hcell hrow hstanding
  have hfound : ∀ {r s}, GreatestFiled A (s, r) → s.cellName = n →
      ∃ s' bytes, standing ns d c r = some (s', bytes) ∧ s'.place = s.place := by
    intro r s hgreatest hname
    obtain ⟨s', bytes, hstanding⟩ :=
      hinv.standing_some hstands hgreatest.mem (hname ▸ hcell : cellOf ns.hash s.cellName = some c)
    obtain ⟨hgreatest', hname'⟩ := hread hstanding
    exact ⟨s', bytes, hstanding, greatest_place hgreatest' hgreatest (hname'.trans hname.symm)⟩
  constructor
  · rintro ⟨s, hforce, hvalue⟩
    obtain ⟨hset, ⟨bytes, hstanding⟩, habove⟩ := inForce_iff.1 hforce
    obtain ⟨hgreatest, hname⟩ := hread hstanding
    refine ⟨s, ⟨hgreatest, hname, hset, fun r' s' hlt hgreatest' hname' => ?_⟩, hvalue⟩
    obtain ⟨s'', bytes', hstanding', hplace⟩ := hfound hgreatest' hname'
    exact (place_inj hplace).2.2.1.symm.trans (habove r' s'' bytes' hlt hstanding')
  · rintro ⟨s, hforce, hvalue⟩
    obtain ⟨s', bytes, hstanding, hplace⟩ := hfound hforce.greatest hforce.cell
    obtain ⟨-, -, hset, hvalue'⟩ := place_inj hplace
    refine ⟨s', inForce_iff.2 ⟨hset.trans hforce.set, ⟨bytes, hstanding⟩, ?_⟩,
      hvalue'.trans hvalue⟩
    intro r' s'' bytes' hlt hstanding'
    obtain ⟨hgreatest, hname⟩ := hread hstanding'
    exact hforce.above r' s'' hlt hgreatest hname

theorem LearnInv.get (hn : n ∈ N) {v : Bytes} :
    settingsGet ns d n = some (v, r) ↔ ∃ s, InForce A n r s ∧ s.value = v := by
  unfold settingsGet
  cases hcell : cellOf ns.hash n with
  | none =>
    refine ⟨nofun, ?_⟩
    rintro ⟨s, hforce, -⟩
    obtain ⟨row, held, s', -, hholds, hname, -⟩ := hinv.greatest _ hforce.greatest.mem
    obtain ⟨-, -, c', -, -, hcell', -⟩ := hholds.read
    rw [settingCell, hname, show (s, r).1.cellName = n from hforce.cell, hcell] at hcell'
    cases hcell'
  | some c =>
    rw [← hinv.inForce_value hhash hstands hN hinj hn hcell]
    dsimp only
    rw [Option.map_eq_some_iff]
    constructor
    · rintro ⟨⟨r', s⟩, hforce, heq⟩
      obtain ⟨rfl, rfl⟩ := Prod.mk.inj heq
      exact ⟨s, hforce, rfl⟩
    · rintro ⟨s, hforce, rfl⟩
      exact ⟨(r, s), hforce, rfl⟩

/-- **A walk reports each cell once**, with what is in force of it. -/
theorem LearnInv.each (hn : n ∈ N) :
    ((settingsEach ns d).filter fun p => p.1.cellName = n).map (fun p => (p.1.value, p.2)) =
      (settingsGet ns d n).toList := by
  have hreport : ∀ {row y}, ((eachWalked ns d row).filter fun p => p.1.cellName = n).map
      (fun p => (p.1.value, p.2)) = some y ↔ ∃ s r c, s.cellName = n ∧ (s.value, r) = y ∧
        cellOf ns.hash n = some c ∧ settingRowOf ns.hash c r = some row ∧
          inForce ns d c = some (r, s) := by
    intro row y
    rw [Option.map_eq_some_iff]
    constructor
    · rintro ⟨⟨s, r⟩, hfilter, rfl⟩
      obtain ⟨hwalked, hname⟩ := Option.filter_eq_some_iff.1 hfilter
      obtain ⟨c, hcell, hrow, hforce⟩ := (eachWalked_iff hstands).1 hwalked
      have hname' : s.cellName = n := of_decide_eq_true hname
      exact ⟨s, r, c, hname', rfl, hname' ▸ hcell, hrow, hforce⟩
    · rintro ⟨s, r, c, rfl, rfl, hcell, hrow, hforce⟩
      exact ⟨(s, r), Option.filter_eq_some_iff.2
        ⟨(eachWalked_iff hstands).2 ⟨c, hcell, hrow, hforce⟩, decide_eq_true rfl⟩, rfl⟩
  unfold settingsEach
  rw [List.filter_filterMap, List.map_filterMap]
  refine filterMap_eq_toList d.rows.keys_nodup ?_ ?_ ?_
  · intro row _ y hy
    obtain ⟨s, r, c, -, rfl, hcell, -, hforce⟩ := hreport.1 hy
    rw [settingsGet, hcell]
    dsimp only
    rw [hforce]
    rfl
  · intro row _ row' _ hy hy'
    obtain ⟨y, hy⟩ := Option.ne_none_iff_exists'.1 hy
    obtain ⟨y', hy'⟩ := Option.ne_none_iff_exists'.1 hy'
    obtain ⟨s, r, c, -, -, hcell, hrow, hforce⟩ := hreport.1 hy
    obtain ⟨s', r', c', -, -, hcell', hrow', hforce'⟩ := hreport.1 hy'
    obtain rfl := Option.some.inj (hcell.symm.trans hcell')
    obtain ⟨rfl, -⟩ := Prod.mk.inj (Option.some.inj (hforce.symm.trans hforce'))
    exact Option.some.inj (hrow.symm.trans hrow')
  · intro y hy
    unfold settingsGet at hy
    cases hcell : cellOf ns.hash n with
    | none => rw [hcell] at hy; cases hy
    | some c =>
      rw [hcell] at hy
      obtain ⟨⟨r, s⟩, hforce, rfl⟩ := Option.map_eq_some_iff.1 hy
      obtain ⟨-, ⟨bytes, hstanding⟩, -⟩ := inForce_iff.1 hforce
      obtain ⟨row, hrow⟩ := settingRowOf_answers hhash c r
      obtain ⟨held, hload, -⟩ := hinv.standing_holds hrow hstanding
      have hname := (hinv.standing_greatest hN hinj hn hcell hrow hstanding).2
      exact ⟨row, Disk.mem_keys_iff.2 ⟨held, hload⟩,
        hreport.2 ⟨s, r, c, hname, rfl, hcell, hrow, hforce⟩⟩

end Reads

/-- **The settings converge.**  Two runs that present the same settings, in any order and
with any repetitions, read alike, and as what is in force of the set. -/
theorem settings_converge {ns : Settings} {H : Bytes → RecId} {N : Set CellName}
    (hhash : ns.hash = answering H) (hstands : ∀ s r bytes, actStands ns s r bytes = true)
    (hinj : ns.hash.InjOn (cellInputs ns.hash N)) {ls ls' : List Learning}
    (hN : ∀ p ∈ presented ns ls, p.1.cellName ∈ N)
    (hsame : presented ns ls = presented ns ls') :
    (∀ n ∈ N, settingsGet ns (learnRun ns ls) n = settingsGet ns (learnRun ns ls') n) ∧
      Converged ns N (presented ns ls) (learnRun ns ls) := by
  have hinv := (learnInv_run hhash hstands hinj ls hN).1
  have hinv' := (learnInv_run hhash hstands hinj ls' (hsame ▸ hN)).1
  rw [← hsame] at hinv'
  refine ⟨fun n hn => Option.ext fun ⟨v, r⟩ => ?_, fun n hn v r => ?_, ?_, ?_, fun n hn => ?_⟩
  · rw [hinv.get hhash hstands hN hinj hn, hinv'.get hhash hstands hN hinj hn]
  · exact hinv.get hhash hstands hN hinj hn
  · intro c r hgreatest hclear v r'
    rw [hinv.get hhash hstands hN hinj (hN _ hgreatest.mem)]
    exact exists_congr fun s => and_congr_left fun _ =>
      inForce_withdrawn hgreatest rfl hclear
  · intro c r v hc hclear hget
    obtain ⟨s, hforce, rfl⟩ := (hinv.get hhash hstands hN hinj (hN _ hc)).1 hget
    exact ⟨s, hforce.greatest.mem, hforce.cell, hforce.set, rfl, hforce.version_le hc rfl⟩
  · exact hinv.each hhash hstands hN hinj hn

/-! ## A run -/

/-- A setting of one key of one host's cells, as it is signed. -/
def settingOf (setter : Key) (version : ℕ) (set : Bool) (value : Bytes) : Bytes :=
  signedVersion :: settingTag :: (bytes32 setter ++ Scope.host.byte :: (bytes32 7 ++
    (putBe 8 version ++ 1 :: 97 :: (if set then 1 else 0) :: (putBe 2 value.length ++
      (value ++ List.replicate 64 0)))))

/-- Its cell. -/
def cellOfSetting : CellName := ⟨.host, 7, [97]⟩

/-- A node that takes every signature, and no `apply`. -/
def oneNode : Settings := ⟨tailHash, acceptingSign, none, 0⟩

/-- What is hashed for that cell. -/
def oneCellInputs : List Bytes :=
  let subject := BitVec.ofNat 256 (getBe (subjectInput .host 7) 17 32)
  let cell := BitVec.ofNat 256 (getBe (cellInput .host subject [97]) 19 32)
  [subjectInput .host 7, cellInput .host subject [97], settingRowInput cell .host,
    settingRowInput cell .admin, settingRowInput cell .root]

theorem mem_oneCellInputs {x : Bytes} (hx : x ∈ cellInputs tailHash {cellOfSetting}) :
    x ∈ oneCellInputs := by
  have hcell : cellOf tailHash cellOfSetting = some (BitVec.ofNat 256 (getBe (cellInput .host
      (BitVec.ofNat 256 (getBe (subjectInput .host 7) 17 32)) [97]) 19 32)) := by
    decide +kernel
  have hsubject : scopeSubject tailHash .host 7 =
      some (BitVec.ofNat 256 (getBe (subjectInput .host 7) 17 32)) := by
    decide
  obtain ⟨n, rfl, (rfl | ⟨subject, hsome, rfl⟩) | ⟨cell, r, hsome, rfl⟩⟩ := hx
  · exact List.mem_cons_self
  · obtain rfl := Option.some.inj (hsubject.symm.trans hsome)
    exact List.mem_cons_of_mem _ List.mem_cons_self
  · obtain rfl := Option.some.inj (hcell.symm.trans hsome)
    cases r <;> simp [oneCellInputs]

/-- Nothing hashed for that cell collides. -/
theorem oneNode_injOn : tailHash.InjOn (cellInputs tailHash {cellOfSetting}) := by
  intro x hx y hy d hhash hhash'
  have hall : ∀ x ∈ oneCellInputs, ∀ y ∈ oneCellInputs,
      tailHash.hash x = tailHash.hash y → x = y := by
    decide
  exact hall x (mem_oneCellInputs hx) y (mem_oneCellInputs hy) (hhash.trans hhash'.symm)

/-- A run of settings of that cell alone. -/
theorem presented_oneCell {ls : List Learning} (h : ∀ l ∈ ls,
    (settingOpen acceptingSign l.bytes).toOption.map Setting.cellName = some cellOfSetting) :
    ∀ p ∈ presented oneNode ls, p.1.cellName ∈ ({cellOfSetting} : Set CellName) := by
  rintro p ⟨l, hl, hopen, -⟩
  have hname := h l hl
  rw [show settingOpen acceptingSign l.bytes = .ok p.1 from hopen] at hname
  exact Option.some.inj hname

/-- A clear of a later version at one rank and a set at two, in two orders. -/
theorem settings_converge_clear :
    (∀ n ∈ ({cellOfSetting} : Set CellName),
      settingsGet oneNode (learnRun oneNode [⟨settingOf 7 1 true [118], .root, 5⟩,
        ⟨settingOf 7 2 false [], .root, 6⟩, ⟨settingOf 7 1 true [119], .host, 7⟩]) n =
      settingsGet oneNode (learnRun oneNode [⟨settingOf 7 1 true [119], .host, 0⟩,
        ⟨settingOf 7 2 false [], .root, 1⟩, ⟨settingOf 7 1 true [118], .root, 2⟩,
        ⟨settingOf 7 2 false [], .root, 3⟩]) n) ∧
    Converged oneNode {cellOfSetting} (presented oneNode [⟨settingOf 7 1 true [118], .root, 5⟩,
        ⟨settingOf 7 2 false [], .root, 6⟩, ⟨settingOf 7 1 true [119], .host, 7⟩])
      (learnRun oneNode [⟨settingOf 7 1 true [118], .root, 5⟩,
        ⟨settingOf 7 2 false [], .root, 6⟩, ⟨settingOf 7 1 true [119], .host, 7⟩]) := by
  refine settings_converge rfl (fun _ _ _ => rfl) oneNode_injOn (presented_oneCell ?_) ?_
  · decide +kernel
  · refine Set.Subset.antisymm (presented_mono ?_) (presented_mono ?_) <;> decide

end Node
end Fuzznet
