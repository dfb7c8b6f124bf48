/-
# Where two nodes hold one statement

`fzn_setting_supersedes` orders two settings of one cell by what they say, and not by the rank
they state.  So of two that differ in more than that exactly one supersedes the other, and of
two that differ in it alone neither does (`supersedes_one_iff`): the one learned first stays.

Two nodes that are given the same settings hold one signed statement in every row, and serve
it, in whatever order they are given, where no two of the greatest settings of a row differ in
the rank stated alone, and only there (`settings_agree`).
-/

import Fuzznet.Node.SettingsConverge
import Fuzznet.State.SettingIssue

namespace Fuzznet
namespace Node

open Wire Lib State
open Session (bytes32)

/-! ## Two settings of one cell -/

/-- Two settings that differ, and in the rank they state alone. -/
def ApartByRank (a b : Setting) : Prop := a ≠ b ∧ a = { b with rank := a.rank }

/-- Settings of one cell and one place are one, up to the rank they state. -/
theorem place_eq_iff {a b : Setting} (hcell : a.cellName = b.cellName) :
    a.place = b.place ↔ a = { b with rank := a.rank } := by
  constructor
  · intro h
    obtain ⟨hversion, hsetter, hset, hvalue⟩ := place_inj h
    obtain ⟨setter, scope, about, version, key, set, value, rank⟩ := a
    obtain ⟨hscope, habout, hkey⟩ := CellName.mk.inj hcell
    dsimp only at hversion hsetter hset hvalue hscope habout hkey
    rw [hversion, hsetter, hset, hvalue, hscope, habout, hkey]
  · intro h
    rw [h]
    rfl

/-- **Exactly one of two settings of a cell supersedes the other** where they differ in more
than the rank they state. -/
theorem supersedes_one_iff {a b : Setting} (hcell : a.cellName = b.cellName) (hne : a ≠ b) :
    Xor (supersedes a b = true) (supersedes b a = true) ↔ ¬ApartByRank a b := by
  rw [supersedes_iff, supersedes_iff, ApartByRank, ← place_eq_iff hcell]
  constructor
  · rintro (⟨hlt, -⟩ | ⟨hlt, -⟩) ⟨-, heq⟩
    · exact hlt.ne' heq
    · exact hlt.ne heq
  · intro h
    rcases lt_trichotomy a.place b.place with hlt | heq | hlt
    · exact .inr ⟨hlt, hlt.asymm⟩
    · exact absurd ⟨hne, heq⟩ h
    · exact .inl ⟨hlt, hlt.asymm⟩

theorem supersedes_trans {a b c : Setting} (h : supersedes a b = true)
    (h' : supersedes b c = true) : supersedes a c = true := by
  rw [supersedes_iff] at h h' ⊢
  exact h'.trans h

/-- Settings opened from bytes signed alike are one. -/
theorem eq_of_signed {ops : SignOps} {b b' : Bytes} {s s' : Setting}
    (h : settingOpen ops b = .ok s) (h' : settingOpen ops b' = .ok s') :
    settingSigned b = settingSigned b' ↔ s = s' := by
  obtain ⟨hformed, hsigned, -⟩ := settingOpen_signed h
  obtain ⟨hformed', hsigned', -⟩ := settingOpen_signed h'
  rw [hsigned, hsigned']
  exact ⟨signedPart_inj hformed hformed', congrArg _⟩

/-! ## What is held and served -/

/-- `object_in` of `node/holdings.c`, of a row of `FZN_HOLDINGS_SETTINGS`. -/
def settingObject (row : Bytes) : Option Bytes :=
  match rowRead row with
  | none => none
  | some parts =>
    if parts.setting.length ≤ 2 ∨ parts.setting.getD 0 0 ≠ signedVersion ∨
        parts.setting.getD 1 0 ≠ settingTag then none
    else some parts.setting

/-- The statement standing for a cell at a rank, as its setter signed it. -/
def statement (ns : Settings) (d : SettingsDisk) (n : CellName) (r : SettingRank) :
    Option Bytes :=
  (cellOf ns.hash n).bind fun cell => (standing ns d cell r).map fun held => settingSigned held.2

/-- The statement of the object `fzn_holdings_each` hands on from the row of a cell at a
rank. -/
def servedStatement (ns : Settings) (d : SettingsDisk) (n : CellName) (r : SettingRank) :
    Option Bytes :=
  (cellOf ns.hash n).bind fun cell => (settingRowOf ns.hash cell r).bind fun row =>
    ((settingsLoad d row 4096).bind settingObject).map settingSigned

/-- Two nodes hold one statement for every cell of `N` at every rank, and what the one serves
is what the other holds. -/
def Agree (N : Set CellName) (ns ns' : Settings) (d d' : SettingsDisk) : Prop :=
  ∀ n ∈ N, ∀ r, statement ns d n r = statement ns' d' n r ∧
    servedStatement ns d n r = statement ns' d' n r

/-- No act of the settings of a run has fallen. -/
def ActsStand (ns : Settings) (ls : List Learning) : Prop :=
  ∀ l ∈ ls, ∀ s, settingOpen ns.verify l.bytes = .ok s → actStands ns s l.rank l.bytes = true

/-- No two of the greatest settings of a row differ in the rank they state alone. -/
def NoRankTie (A : Set Filed) : Prop :=
  ∀ p q, GreatestFiled A p → GreatestFiled A q → filedAt p = filedAt q → ¬ApartByRank p.1 q.1

/-! ## Acts that stand -/

section Plain

variable {ns : Settings} {ls : List Learning} {d : SettingsDisk}

/-- The node without its `apply`. -/
def Settings.plain (ns : Settings) : Settings := { ns with apply := none, now := 0 }

/-- Every row is of a setting of the run. -/
def RowsOf (ns : Settings) (ls : List Learning) (d : SettingsDisk) : Prop :=
  ∀ row held, d.load row = some held → ∃ l ∈ ls, ∃ s t,
    settingOpen ns.verify l.bytes = .ok s ∧ held = rowBytes l.rank t l.bytes

theorem RowsOf.mono {ls' : List Learning} (h : RowsOf ns ls d) (hsub : ls ⊆ ls') :
    RowsOf ns ls' d := by
  intro row held hload
  obtain ⟨l, hl, hrest⟩ := h row held hload
  exact ⟨l, hsub hl, hrest⟩

/-- Where every act stands, what stands is what stands without `apply`. -/
theorem standing_plain (hrows : RowsOf ns ls d) (hacts : ActsStand ns ls) (c : Bytes32)
    (r : SettingRank) : standing ns d c r = standing ns.plain d c r := by
  have hread : ∀ row held, d.load row = some held →
      rowStands ns c r held = rowStands ns.plain c r held := by
    intro row held hload
    obtain ⟨l, hl, s, t, hopen, rfl⟩ := hrows row held hload
    have hact := hacts l hl s hopen
    unfold rowStands
    rw [rowRead_rowBytes l.rank t (ne_nil_of_open hopen)]
    dsimp only
    rw [hopen, show settingOpen ns.plain.verify l.bytes = .ok s from hopen]
    dsimp only
    by_cases hr : l.rank = r
    · rw [← hr, hact]
      rfl
    · rw [if_neg fun h => hr h.1, if_neg fun h => hr h.1]
  unfold standing
  rw [show settingRowOf ns.plain.hash c r = settingRowOf ns.hash c r from rfl]
  cases settingRowOf ns.hash c r with
  | none => rfl
  | some row =>
    dsimp only
    cases hload : settingsLoad d row rowMax with
    | none => rfl
    | some held => exact hread row held (Option.filter_eq_some_iff.1 hload).1

/-- A call leaves the slot as it is, or writes the row of what it presents. -/
theorem learnStep_cases (hanswers : d.outcomes = []) (l : Learning) :
    learnStep ns d l = d ∨ ∃ row s, settingOpen ns.verify l.bytes = .ok s ∧
      learnStep ns d l = ⟨d.rows.insert row (rowBytes l.rank l.now l.bytes), []⟩ := by
  unfold learnStep settingsLearn
  cases hopen : settingOpen ns.verify l.bytes with
  | error e => exact .inl rfl
  | ok s =>
    dsimp only
    cases settingCell ns.hash s with
    | none => exact .inl rfl
    | some cell =>
      dsimp only
      cases metBy (standing { ns with now := l.now } d cell l.rank) s l.bytes with
      | some err => exact .inl rfl
      | none =>
        dsimp only
        cases settingRowOf ns.hash cell l.rank with
        | none => exact .inl rfl
        | some row =>
          refine .inr ⟨row, s, rfl, ?_⟩
          dsimp only
          rw [rowSave, if_neg (not_lt.2 (settingOpen_length hopen).2),
            Disk.save_of_nil hanswers]

theorem learnStep_plain (hrows : RowsOf ns ls d) (hacts : ActsStand ns ls) (l : Learning) :
    learnStep ns d l = learnStep ns.plain d l := by
  have hstanding : ∀ c, standing { ns with now := l.now } d c l.rank =
      standing { ns.plain with now := l.now } d c l.rank := fun c =>
    standing_plain hrows hacts c l.rank
  unfold learnStep settingsLearn
  simp only [hstanding]
  rfl

/-- **A run whose acts stand is a run without `apply`.** -/
theorem learnRun_plain (hacts : ActsStand ns ls) :
    learnRun ns ls = learnRun ns.plain ls ∧ RowsOf ns ls (learnRun ns ls) ∧
      (learnRun ns ls).outcomes = [] := by
  induction ls using List.reverseRecOn with
  | nil =>
    refine ⟨rfl, fun row held hload => ?_, rfl⟩
    cases hload
  | append_singleton ls l ih =>
    have hfront : ActsStand ns ls := fun l' hl' => hacts l' (List.mem_append_left _ hl')
    obtain ⟨heq, hrows, hanswers⟩ := ih hfront
    have hrun : ∀ ns : Settings, learnRun ns (ls ++ [l]) = learnStep ns (learnRun ns ls) l :=
      fun ns => List.foldl_append
    have hmore := hrows.mono (List.subset_append_left ls [l])
    refine ⟨?_, ?_⟩
    · rw [hrun, hrun, ← heq]
      exact learnStep_plain hrows hfront l
    · rw [hrun]
      rcases @learnStep_cases ns (learnRun ns ls) hanswers l with
        hsame | ⟨row, s, hopen, hstep⟩
      · rw [hsame]
        exact ⟨hmore, hanswers⟩
      · rw [hstep]
        refine ⟨fun row' held hload => ?_, rfl⟩
        rcases eq_or_ne row' row with rfl | hne
        · have hheld : held = rowBytes l.rank l.now l.bytes :=
            Option.some.inj (hload.symm.trans (AList.lookup_insert _))
          exact ⟨l, List.mem_append_right _ List.mem_cons_self, s, l.now, hopen, hheld⟩
        · exact hmore row' held ((AList.lookup_insert_ne hne).symm.trans hload)

end Plain

/-! ## What a run holds -/

section Holds

variable {ns : Settings} {H : Bytes → RecId} {N : Set CellName} {A : Set Filed}
  {d : SettingsDisk} {n : CellName} {r : SettingRank} {c row : Bytes32} {s : Setting}

theorem settingObject_rowBytes {bytes : Bytes} (hopen : settingOpen ns.verify bytes = .ok s)
    (r : SettingRank) (t : UInt64) : settingObject (rowBytes r t bytes) = some bytes := by
  obtain ⟨k, v, scope, stated, hlaid, -⟩ := settingOpen_laid hopen
  have hlen := hlaid.length
  unfold settingObject
  rw [rowRead_rowBytes r t (ne_nil_of_open hopen)]
  dsimp only
  rw [if_neg]
  rintro (hle | hne | hne)
  · omega
  · exact hne hlaid.version
  · exact hne hlaid.tag

/-- What stands is told by the row alone. -/
theorem standing_congr {d' : SettingsDisk} (hrow : settingRowOf ns.hash c r = some row)
    (h : d.load row = d'.load row) : standing ns d c r = standing ns d' c r := by
  unfold standing settingsLoad
  rw [hrow]
  dsimp only
  rw [h]

variable (hstands : ∀ s r bytes, actStands ns s r bytes = true) (hhash : ns.hash = answering H)
  (hinj : ns.hash.InjOn (cellInputs ns.hash N)) (hN : ∀ p ∈ A, p.1.cellName ∈ N)
include hstands hhash hinj hN

/-- **What is served from a row is what stands there.** -/
theorem LearnInv.served (hinv : LearnInv ns A d) (hn : n ∈ N) (r : SettingRank) :
    servedStatement ns d n r = statement ns d n r := by
  unfold servedStatement statement
  cases hcell : cellOf ns.hash n with
  | none => rfl
  | some c =>
    obtain ⟨row, hrow⟩ := settingRowOf_answers hhash c r
    rw [Option.bind_some, Option.bind_some, hrow, Option.bind_some]
    cases hload : d.load row with
    | none =>
      have hnone : standing ns d c r = none := by
        unfold standing settingsLoad
        rw [hrow]
        dsimp only
        rw [hload]
        rfl
      rw [settingsLoad, hload, hnone]
      rfl
    | some held =>
      obtain ⟨p, hp, t, bytes, c', hopen, hcell', hrow', rfl⟩ := hinv.filed row held hload
      obtain ⟨rfl, hr⟩ := cellRow_eq hinj (hN p hp) hn hcell' hcell hrow' hrow
      have hbytes := settingOpen_length hopen
      have hle : (rowBytes p.2 t bytes).length ≤ rowMax := by
        rw [length_rowBytes, rowMax]
        exact Nat.add_le_add_left hbytes.2 _
      have hstanding : standing ns d c' r = some (p.1, bytes) :=
        (standing_iff hrow).2 ⟨_, t, hload, hle, hr ▸ rowRead_rowBytes p.2 t
          (ne_nil_of_open hopen), hopen, hcell', hstands _ _ _⟩
      have hserved : settingsLoad d row 4096 = some (rowBytes p.2 t bytes) :=
        Option.filter_eq_some_iff.2 ⟨hload, decide_eq_true (hle.trans (by decide))⟩
      rw [hserved, hstanding, Option.bind_some, settingObject_rowBytes hopen]
      rfl

omit hstands in
/-- What stands for a cell at a rank is signed of the greatest filed there. -/
theorem LearnInv.statement_greatest (hinv : LearnInv ns A d) (hn : n ∈ N) {b : Bytes}
    (h : statement ns d n r = some b) :
    ∃ s, GreatestFiled A (s, r) ∧ s.cellName = n ∧ b = s.signedPart := by
  unfold statement at h
  obtain ⟨c, hcell, hmap⟩ := Option.bind_eq_some_iff.1 h
  obtain ⟨⟨s, bytes⟩, hstanding, rfl⟩ := Option.map_eq_some_iff.1 hmap
  obtain ⟨row, hrow⟩ := settingRowOf_answers hhash c r
  obtain ⟨hgreatest, hname⟩ := hinv.standing_greatest hN hinj hn hcell hrow hstanding
  obtain ⟨-, -, -, -, -, hopen⟩ := hinv.standing_holds hrow hstanding
  exact ⟨s, hgreatest, hname, (settingOpen_signed hopen).2.1⟩

omit hhash hinj hN in
/-- Something stands where something is filed. -/
theorem LearnInv.statement_filed (hinv : LearnInv ns A d) {p : Filed} (hp : p ∈ A) :
    ∃ b, statement ns d p.1.cellName p.2 = some b := by
  obtain ⟨row, held, s, -, hholds, hname, -⟩ := hinv.greatest p hp
  obtain ⟨-, -, c, -, -, hcell, -⟩ := hholds.read
  rw [settingCell, hname] at hcell
  obtain ⟨s', bytes, hstanding⟩ := hinv.standing_some hstands hp hcell
  exact ⟨settingSigned bytes, by rw [statement, hcell, Option.bind_some, hstanding]; rfl⟩

/-- **Two slots of one set hold one statement**, where no two of the greatest differ in the
rank they state alone. -/
theorem LearnInv.statement_eq {d' : SettingsDisk} (hinv : LearnInv ns A d)
    (hinv' : LearnInv ns A d') (htie : NoRankTie A) (hn : n ∈ N) :
    statement ns d n r = statement ns d' n r := by
  have hone : ∀ {d d' b}, LearnInv ns A d → LearnInv ns A d' → statement ns d n r = some b →
      statement ns d' n r = some b := by
    intro d d' b hinv hinv' hb
    obtain ⟨s, hgreatest, hname, rfl⟩ := hinv.statement_greatest hhash hinj hN hn hb
    obtain ⟨b', hb'⟩ := hinv'.statement_filed hstands hgreatest.mem
    rw [show (s, r).1.cellName = n from hname] at hb'
    obtain ⟨s', hgreatest', hname', rfl⟩ := hinv'.statement_greatest hhash hinj hN hn hb'
    have hcell : s.cellName = s'.cellName := hname.trans hname'.symm
    have hplace := greatest_place hgreatest hgreatest' hcell
    have hnot := htie _ _ hgreatest hgreatest' (congrArg (fun m => (m, r)) hcell)
    have heq : s = s' := by
      by_contra hne
      exact hnot ⟨hne, (place_eq_iff hcell).1 hplace⟩
    rw [hb', heq]
  cases h : statement ns d n r with
  | some b => exact (hone hinv hinv' h).symm
  | none =>
    cases h' : statement ns d' n r with
    | none => rfl
    | some b =>
      rw [hone hinv' hinv h'] at h
      cases h

omit hhash hinj hN in
/-- A row written stands. -/
theorem standing_written (rows : AList fun _ : Bytes32 => Bytes) {bytes : Bytes}
    (hopen : settingOpen ns.verify bytes = .ok s) (hcell : settingCell ns.hash s = some c)
    (hrow : settingRowOf ns.hash c r = some row) (t : UInt64) :
    standing ns ⟨rows.insert row (rowBytes r t bytes), []⟩ c r = some (s, bytes) := by
  refine (standing_iff hrow).2 ⟨_, t, AList.lookup_insert _, ?_,
    rowRead_rowBytes r t (ne_nil_of_open hopen), hopen, hcell, hstands _ _ _⟩
  rw [length_rowBytes, rowMax]
  exact Nat.add_le_add_left (settingOpen_length hopen).2 _

/-- **The first learned of the greatest stays.** -/
theorem first_stays {l : Learning} (hopen : settingOpen ns.verify l.bytes = .ok s)
    (hgreatest : GreatestFiled A (s, l.rank)) (ls : List Learning)
    (hsub : presented ns (l :: ls) ⊆ A) :
    statement ns (learnRun ns (l :: ls)) s.cellName l.rank = some s.signedPart := by
  obtain ⟨c, hcell⟩ := settingCell_answers hhash hopen
  obtain ⟨row, hrow⟩ := settingRowOf_answers hhash c l.rank
  have hs : s.cellName ∈ N := hN _ hgreatest.mem
  suffices hstanding : standing ns (learnRun ns (l :: ls)) c l.rank = some (s, l.bytes) ∧
      (learnRun ns (l :: ls)).outcomes = [] by
    have hname : cellOf ns.hash s.cellName = some c := hcell
    rw [statement, hname, Option.bind_some, hstanding.1, Option.map_some,
      (settingOpen_signed hopen).2.1]
  induction ls using List.reverseRecOn with
  | nil =>
    have hnone : standing ns ⟨∅, []⟩ c l.rank = none := by
      unfold standing
      rw [hrow]
      rfl
    have hfree : metBy (standing ns ⟨∅, []⟩ c l.rank) s l.bytes = none := by
      rw [hnone]
      rfl
    have hrun : learnRun ns [l] = learnStep ns ⟨∅, []⟩ l := rfl
    rw [hrun, learnStep_eq rfl hopen hcell hrow, if_pos hfree]
    exact ⟨standing_written hstands _ hopen hcell hrow l.now, rfl⟩
  | append_singleton ls l' ih =>
    have hfront : presented ns (l :: ls) ⊆ A :=
      (presented_mono fun x hx => ⟨x, List.mem_append_left [l'] hx, rfl, rfl⟩).trans hsub
    obtain ⟨hstanding, hanswers⟩ := ih hfront
    have hrun : learnRun ns (l :: (ls ++ [l'])) = learnStep ns (learnRun ns (l :: ls)) l' := by
      rw [← List.cons_append]
      exact List.foldl_append
    rw [hrun]
    cases hopen' : settingOpen ns.verify l'.bytes with
    | error e =>
      have hsame : learnStep ns (learnRun ns (l :: ls)) l' = learnRun ns (l :: ls) := by
        unfold learnStep settingsLearn
        rw [hopen']
      rw [hsame]
      exact ⟨hstanding, hanswers⟩
    | ok s' =>
      have hmem : (s', l'.rank) ∈ A :=
        hsub ⟨l', List.mem_append_right (l :: ls) List.mem_cons_self, hopen', rfl⟩
      obtain ⟨c', hcell'⟩ := settingCell_answers hhash hopen'
      obtain ⟨row', hrow'⟩ := settingRowOf_answers hhash c' l'.rank
      rw [learnStep_eq hanswers hopen' hcell' hrow']
      split
      next hfree =>
        refine ⟨?_, rfl⟩
        have hne : row ≠ row' := by
          rintro rfl
          -- a row of this cell and rank is written over by what is greater alone
          obtain ⟨rfl, hr⟩ := cellRow_eq hinj (hN _ hmem) hs hcell' hcell hrow' hrow
          have hname := cellName_eq hinj (hN _ hmem) hs hcell' hcell
          rw [hr, hstanding, metBy_eq_none_iff] at hfree
          exact (hgreatest.le _ hmem (Prod.ext hname hr)).not_gt hfree.2
        rw [← hstanding]
        exact standing_congr hrow (AList.lookup_insert_ne hne)
      next => exact ⟨hstanding, hanswers⟩

end Holds

theorem statement_plain {ns : Settings} {ls : List Learning} {d : SettingsDisk}
    (hrows : RowsOf ns ls d) (hacts : ActsStand ns ls) (n : CellName) (r : SettingRank) :
    statement ns d n r = statement ns.plain d n r := by
  unfold statement
  rw [show cellOf ns.plain.hash n = cellOf ns.hash n from rfl]
  simp only [standing_plain hrows hacts]

/-- A run of what another presents, one call of it made first. -/
theorem presented_cons {ns : Settings} {ls : List Learning} {l : Learning} (hl : l ∈ ls) :
    presented ns (l :: ls) = presented ns ls := by
  refine Set.Subset.antisymm (presented_mono fun x hx => ?_) (presented_mono fun x hx => ?_)
  · rcases List.mem_cons.1 hx with rfl | hx
    · exact ⟨x, hl, rfl, rfl⟩
    · exact ⟨x, hx, rfl, rfl⟩
  · exact ⟨x, List.mem_cons_of_mem _ hx, rfl, rfl⟩

/-- **Settings of a cell are ordered by all but the rank they state**, and two nodes agree on
what they are given in any order where none of the greatest differ in it alone, and only
there. -/
theorem settings_agree {ns ns' : Settings} {H : Bytes → RecId} {N : Set CellName}
    (hhash : ns.hash = answering H) (hinj : ns.hash.InjOn (cellInputs ns.hash N))
    (hsame : ns'.hash = ns.hash ∧ ns'.verify = ns.verify) {ls : List Learning}
    (hN : ∀ p ∈ presented ns ls, p.1.cellName ∈ N) (hacts : ActsStand ns ls)
    (hacts' : ActsStand ns' ls) :
    (∀ b b' s s', settingOpen ns.verify b = .ok s → settingOpen ns.verify b' = .ok s' →
      s.cellName = s'.cellName → settingSigned b ≠ settingSigned b' →
        (Xor (supersedes s s' = true) (supersedes s' s = true) ↔ ¬ApartByRank s s')) ∧
    (∀ a b c, supersedes a b = true → supersedes b c = true → supersedes a c = true) ∧
    ((∀ ls', presented ns' ls' = presented ns ls → ActsStand ns' ls' →
        Agree N ns ns' (learnRun ns ls) (learnRun ns' ls')) ↔ NoRankTie (presented ns ls)) := by
  refine ⟨?_, fun a b c => supersedes_trans, ?_⟩
  · intro b b' s s' hopen hopen' hcell hne
    exact supersedes_one_iff hcell fun heq => hne ((eq_of_signed hopen hopen').2 heq)
  -- each node's run is one of the node without its `apply`, and these are one node
  have hplain : ns'.plain = ns.plain := by
    rw [Settings.plain, hsame.1, hsame.2, Settings.plain]
  have hpresented : ∀ ls', presented ns' ls' = presented ns.plain ls' := fun ls' => by
    unfold presented
    rw [hsame.2]
    rfl
  have hstands : ∀ s r bytes, actStands ns.plain s r bytes = true := fun _ _ _ => rfl
  have hhash : ns.plain.hash = answering H := hhash
  have hinj : ns.plain.hash.InjOn (cellInputs ns.plain.hash N) := hinj
  obtain ⟨hrun, hrows, -⟩ := learnRun_plain hacts
  have hinv := (learnInv_run hhash hstands hinj ls hN).1
  rw [← hrun] at hinv
  have hheld : ∀ {ls'}, ActsStand ns' ls' →
      learnRun ns' ls' = learnRun ns.plain ls' ∧
        ∀ n r, statement ns' (learnRun ns' ls') n r =
          statement ns.plain (learnRun ns.plain ls') n r := by
    intro ls' hacts'
    obtain ⟨hrun', hrows', -⟩ := learnRun_plain hacts'
    rw [hplain] at hrun'
    refine ⟨hrun', fun n r => ?_⟩
    rw [statement_plain hrows' hacts', hplain, hrun']
  constructor
  · intro hagree p q hp hq hat happart
    have hfirst : ∀ p, GreatestFiled (presented ns ls) p → ∃ b,
        statement ns (learnRun ns ls) p.1.cellName p.2 = some b ∧ b = p.1.signedPart := by
      intro p hp
      obtain ⟨l, hl, hopen, hr⟩ := hp.mem
      have hall : ActsStand ns' (l :: ls) := fun l' hl' =>
        (List.mem_cons.1 hl').elim (fun h => hacts' l' (h ▸ hl)) (hacts' l')
      have hset : presented ns.plain (l :: ls) = presented ns ls := presented_cons hl
      have hthere := hagree (l :: ls) ((hpresented _).trans hset) hall _ (hN p hp.mem) p.2
      rw [(hheld hall).2] at hthere
      have hstays := first_stays hstands hhash hinj hN hopen (by rw [hr]; exact hp) ls
        hset.subset
      rw [hr] at hstays
      exact ⟨p.1.signedPart, hthere.1.trans hstays, rfl⟩
    obtain ⟨b, hb, hsigned⟩ := hfirst p hp
    obtain ⟨b', hb', hsigned'⟩ := hfirst q hq
    obtain ⟨hname, hr⟩ := Prod.mk.inj hat
    rw [hname, hr, hb', Option.some.injEq] at hb
    obtain ⟨l, -, hopen, -⟩ := hp.mem
    obtain ⟨l', -, hopen', -⟩ := hq.mem
    exact happart.1 (signedPart_inj (settingOpen_signed hopen).1 (settingOpen_signed hopen').1
      (hsigned.symm.trans (hb.symm.trans hsigned')))
  · intro htie ls' hset hacts' n hn r
    rw [hpresented] at hset
    obtain ⟨hrun', hstatement⟩ := hheld hacts'
    have hinv' := (learnInv_run hhash hstands hinj ls' fun p hp => hN p (hset ▸ hp)).1
    rw [show presented ns.plain ls' = presented ns ls from hset] at hinv'
    have heq : statement ns.plain (learnRun ns ls) n r =
        statement ns.plain (learnRun ns.plain ls') n r :=
      LearnInv.statement_eq hstands hhash hinj hN hinv hinv' htie hn
    have hserved : servedStatement ns.plain (learnRun ns ls) n r =
        statement ns.plain (learnRun ns ls) n r :=
      LearnInv.served hstands hhash hinj hN hinv hn r
    rw [hstatement, statement_plain hrows hacts]
    exact ⟨heq, hserved.trans heq⟩

/-! ## One value, and two ranks stated -/

/-- A setting of one key of one host's cells, of the shape before ranks were stated, and the
same stating a host's. -/
def statesNone : Setting := ⟨7, .host, 7, 1, [97], true, [118], none⟩
def statesHost : Setting := { statesNone with rank := some .host }

/-- A setting as `acceptingSign` signs it. -/
def signedSetting (s : Setting) : Bytes := s.signedPart ++ putBe 64 0

/-- Two versions of a cell, both stating a host's rank, and the first of them filed for a root
too. -/
def twoVersions : List Learning :=
  [⟨signedSetting statesHost, .host, 5⟩,
    ⟨signedSetting { statesHost with version := 2, value := [119] }, .host, 6⟩,
    ⟨signedSetting statesHost, .root, 7⟩]

theorem noRankTie_twoVersions : NoRankTie (presented oneNode twoVersions) := by
  have hrank : ∀ p ∈ presented oneNode twoVersions, p.1.rank = some .host := by
    have hall : ∀ l ∈ twoVersions, (settingOpen acceptingSign l.bytes).toOption.map Setting.rank =
        some (some .host) := by decide +kernel
    rintro p ⟨l, hl, hopen, -⟩
    have hstated := hall l hl
    rw [show settingOpen acceptingSign l.bytes = .ok p.1 from hopen] at hstated
    exact Option.some.inj hstated
  rintro p q hp hq - ⟨hne, heq⟩
  rw [hrank p hp.mem, ← hrank q hq.mem] at heq
  exact hne heq

/-- Learned in two orders, and the later version is held either way. -/
theorem settings_agree_twoVersions :
    Agree {cellOfSetting} oneNode oneNode (learnRun oneNode twoVersions)
      (learnRun oneNode twoVersions.reverse) ∧
    statement oneNode (learnRun oneNode twoVersions.reverse) cellOfSetting .host =
      some (settingSigned (signedSetting { statesHost with version := 2, value := [119] })) := by
  have hsame : presented oneNode twoVersions.reverse = presented oneNode twoVersions :=
    Set.Subset.antisymm (presented_mono (by decide)) (presented_mono (by decide))
  have hagree := @settings_agree oneNode oneNode _ _ rfl oneNode_injOn ⟨rfl, rfl⟩ twoVersions
    (presented_oneCell (by decide +kernel)) (fun _ _ _ _ => rfl) (fun _ _ _ _ => rfl)
  exact ⟨hagree.2.2.2 noRankTie_twoVersions _ hsame fun _ _ _ _ => rfl, by decide +kernel⟩

/-- Neither of the two supersedes the other, and what is learned first stays. -/
theorem settings_apart_by_rank :
    (settingOpen acceptingSign (signedSetting statesNone)).toOption = some statesNone ∧
    (settingOpen acceptingSign (signedSetting statesHost)).toOption = some statesHost ∧
    statesNone.cellName = statesHost.cellName ∧
    settingSigned (signedSetting statesNone) ≠ settingSigned (signedSetting statesHost) ∧
    ¬Xor (supersedes statesNone statesHost = true) (supersedes statesHost statesNone = true) ∧
    statement oneNode (learnRun oneNode [⟨signedSetting statesNone, .host, 5⟩,
      ⟨signedSetting statesHost, .host, 6⟩]) cellOfSetting .host =
        some (settingSigned (signedSetting statesNone)) ∧
    statement oneNode (learnRun oneNode [⟨signedSetting statesHost, .host, 5⟩,
      ⟨signedSetting statesNone, .host, 6⟩]) cellOfSetting .host =
        some (settingSigned (signedSetting statesHost)) := by
  refine ⟨?_, ?_, rfl, ?_, ?_, ?_, ?_⟩
  · decide +kernel
  · decide +kernel
  · decide +kernel
  · decide
  · decide +kernel
  · decide +kernel

end Node
end Fuzznet
