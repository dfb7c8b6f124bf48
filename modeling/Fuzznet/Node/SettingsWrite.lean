/-
# A node writes a setting

`fzn_node_settings_write` and `fzn_node_settings_write_staged` of `node/settings.c`.  A node
signs its own setting at one past every version standing for the cell and no lower than its
clock, appends it to its journal, and keeps it.  Versions are counted in 64 bits and
nothing keeps a setting of the last one out, so one past it is 0.

A write takes effect, or nothing is published, exactly where no setting standing for the cell
is of the last version; and the revert signed beside a staged setting supersedes it exactly
where the clock and every version standing leave two more, and no setting of the writer's own
is in force from a rank above the one it writes at (`settings_write`).
-/

import Fuzznet.Node.SettingsConverge
import Fuzznet.State.SettingIssue

namespace Fuzznet
namespace Node

open Wire Lib State
open Session (bytes32)

/-! ## One past every version -/

/-- The last version there is. -/
def lastVersion : UInt64 := 0xffffffffffffffff

/-- One past `s` where that is no lower than `v`. -/
def past (v s : UInt64) : UInt64 := if v ≤ s then s + 1 else v

/-- The versions standing for a cell, from the host's rank up. -/
def versionsStanding (ns : Settings) (d : SettingsDisk) (cell : Bytes32) : List UInt64 :=
  [SettingRank.host, .admin, .root].filterMap fun r =>
    (standing ns d cell r).map fun held => held.1.version

/-- The version a node signs. -/
def writeVersion (ns : Settings) (d : SettingsDisk) (cell : Bytes32) (now : UInt64) : UInt64 :=
  let version := (versionsStanding ns d cell).foldl past now
  if version = 0 then 1 else version

/-! ## The write -/

/-- `fzn_node_settings_err_t`, with the answer of a journal that refuses. -/
inductive SettingsWriteErr
  | err (e : SettingsErr)
  | journal
  deriving DecidableEq, Repr

/-- `fzn_node_settings_t`, of a node that writes: its key and what it signs with,
`fzn_node_apply_rank` of its context, and `fzn_node_journal_append_object` of its journal,
which refuses or answers with the journal behind it. -/
structure SettingsWriter (J : Type) where
  node : Settings
  pubkey : Key
  signer : SignOps
  rank : Key → Scope → Bytes32 → Option SettingRank
  append : J → Bytes → UInt64 → Option J

variable {J : Type}

/-- The setting a write signs. -/
def SettingsWriter.written (w : SettingsWriter J) (d : SettingsDisk) (now : UInt64)
    (n : CellName) (cell : Bytes32) (rank : SettingRank) (set : Bool) (value : Bytes) :
    Setting where
  setter := w.pubkey
  scope := n.scope
  about := n.about
  version := writeVersion w.node d cell now
  key := n.key
  set := set
  value := value
  rank := some rank

/-- `fzn_node_settings_write`, with the clock as it is read one time after another. -/
def settingsWrite (w : SettingsWriter J) (now : ℕ → UInt64) (j : J) (d : SettingsDisk)
    (n : CellName) (set : Bool) (value : Bytes) : SettingsWriteErr × J × SettingsDisk :=
  if w.node.apply = none then (.err .malformed, j, d)
  else
    match cellOf w.node.hash n with
    | none => (.err .malformed, j, d)
    | some cell =>
      match w.rank w.pubkey n.scope n.about with
      | none => (.err .refused, j, d)
      | some rank =>
        match settingIssue w.signer (w.written d (now 0) n cell rank set value) with
        | .error _ => (.err .malformed, j, d)
        | .ok bytes =>
          match w.append j bytes (now 1 * 1000) with
          | none => (.journal, j, d)
          | some j' =>
            let learned := settingsLearn { w.node with now := now 2 } d bytes rank
            (.err learned.1, j', learned.2)

/-- The setting that undoes one staged at `version`: the value in force before, where it was
of this rank, or a clear. -/
def SettingsWriter.undoing (w : SettingsWriter J) (version : UInt64) (n : CellName)
    (rank : SettingRank) (prior : Option (Bytes × SettingRank)) : Setting :=
  let had := prior.filter fun p => p.2 = rank
  { setter := w.pubkey
    scope := n.scope
    about := n.about
    version := version + 1
    key := n.key
    set := had.isSome
    value := (had.map Prod.fst).getD []
    rank := some rank }

/-- `fzn_node_settings_write_staged`; the revert where it signs one. -/
def settingsWriteStaged (w : SettingsWriter J) (now : ℕ → UInt64) (j : J) (d : SettingsDisk)
    (n : CellName) (value : Bytes) : SettingsWriteErr × J × SettingsDisk × Option Bytes :=
  if w.node.apply = none then (.err .malformed, j, d, none)
  else
    let prior := settingsGet w.node d n
    match settingsWrite w now j d n true value with
    | (.err .ok, j', d') =>
      match settingsStandingOf w.node d' n, w.rank w.pubkey n.scope n.about with
      | some (version, setter), some rank =>
        if setter ≠ w.pubkey then (.err .backend, j', d', none)
        else
          match settingIssue w.signer (w.undoing version n rank prior) with
          | .ok revert => (.err .ok, j', d', some revert)
          | .error _ => (.err .malformed, j', d', none)
      | _, _ => (.err .backend, j', d', none)
    | (err, j', d') => (err, j', d', none)

/-! ## What is past every version -/

theorem past_spec {v s : UInt64} (hs : s ≠ lastVersion) :
    v ≤ past v s ∧ s < past v s ∧ (past v s = v ∨ past v s = s + 1) := by
  have hnext : (s + 1).toNat = s.toNat + 1 := by
    have hlt := s.toNat_lt
    have hne : s.toNat ≠ 2 ^ 64 - 1 := fun h => hs (UInt64.toNat.inj h)
    rw [UInt64.toNat_add, show (1 : UInt64).toNat = 1 from rfl]
    omega
  unfold past
  split
  next hle =>
    rw [UInt64.le_iff_toNat_le] at hle
    refine ⟨?_, ?_, .inr rfl⟩
    · rw [UInt64.le_iff_toNat_le, hnext]
      omega
    · rw [UInt64.lt_iff_toNat_lt, hnext]
      omega
  next hle => exact ⟨UInt64.le_refl v, UInt64.not_le.1 hle, .inl rfl⟩

/-- **The fold is past all it meets**, and no further than it has to be. -/
theorem foldl_past {vs : List UInt64} (hvs : ∀ x ∈ vs, x ≠ lastVersion) (v : UInt64) :
    v ≤ vs.foldl past v ∧ (∀ x ∈ vs, x < vs.foldl past v) ∧
      (vs.foldl past v = v ∨ ∃ x ∈ vs, vs.foldl past v = x + 1) := by
  induction vs generalizing v with
  | nil => exact ⟨UInt64.le_refl v, nofun, .inl rfl⟩
  | cons s vs ih =>
    obtain ⟨hle, hlt, heq⟩ := past_spec (v := v) (hvs s List.mem_cons_self)
    obtain ⟨hle', hlt', heq'⟩ := ih (fun x hx => hvs x (List.mem_cons_of_mem _ hx)) (past v s)
    rw [List.foldl_cons]
    refine ⟨UInt64.le_trans hle hle', ?_, ?_⟩
    · intro x hx
      rcases List.mem_cons.1 hx with rfl | hx
      · exact UInt64.lt_of_lt_of_le hlt hle'
      · exact hlt' x hx
    · rcases heq' with heq' | ⟨x, hx, heq'⟩
      · rw [heq']
        rcases heq with heq | heq
        · exact .inl heq
        · exact .inr ⟨s, List.mem_cons_self, heq⟩
      · exact .inr ⟨x, List.mem_cons_of_mem _ hx, heq'⟩

section Version

variable {ns : Settings} {d : SettingsDisk} {cell : Bytes32}

theorem mem_versionsStanding {x : UInt64} : x ∈ versionsStanding ns d cell ↔
    ∃ r held, standing ns d cell r = some held ∧ held.1.version = x := by
  unfold versionsStanding
  rw [List.mem_filterMap]
  constructor
  · rintro ⟨r, -, h⟩
    obtain ⟨held, hstanding, rfl⟩ := Option.map_eq_some_iff.1 h
    exact ⟨r, held, hstanding, rfl⟩
  · rintro ⟨r, held, hstanding, rfl⟩
    refine ⟨r, ?_, by rw [hstanding]; rfl⟩
    cases r <;> decide

/-- No setting standing for a cell is of a version. -/
def NoneAt (ns : Settings) (d : SettingsDisk) (cell : Bytes32) (version : UInt64) : Prop :=
  ∀ r held, standing ns d cell r = some held → held.1.version ≠ version

theorem writeVersion_spec (hlast : NoneAt ns d cell lastVersion) (now : UInt64) :
    (∀ r held, standing ns d cell r = some held →
      held.1.version < writeVersion ns d cell now) ∧
    (writeVersion ns d cell now = lastVersion ↔
      ¬(now ≠ lastVersion ∧ NoneAt ns d cell (lastVersion - 1))) := by
  have hne : ∀ x ∈ versionsStanding ns d cell, x ≠ lastVersion := by
    intro x hx
    obtain ⟨r, held, hstanding, rfl⟩ := mem_versionsStanding.1 hx
    exact hlast r held hstanding
  obtain ⟨hle, hlt, heq⟩ := foldl_past hne now
  have hbelow : ∀ r held, standing ns d cell r = some held →
      held.1.version < (versionsStanding ns d cell).foldl past now := fun r held hstanding =>
    hlt _ (mem_versionsStanding.2 ⟨r, held, hstanding, rfl⟩)
  unfold writeVersion
  dsimp only
  split
  next hzero =>
    rw [hzero] at hbelow hle
    have hnone : ∀ r held, standing ns d cell r ≠ some held := fun r held hstanding =>
      UInt64.not_lt_zero (hbelow r held hstanding)
    refine ⟨fun r held hstanding => absurd hstanding (hnone r held), ?_⟩
    refine ⟨fun h => absurd h (by decide), fun h => absurd ⟨?_, ?_⟩ h⟩
    · rintro rfl
      exact absurd hle (by decide)
    · exact fun r held hstanding => absurd hstanding (hnone r held)
  next =>
    refine ⟨hbelow, ?_, ?_⟩
    · rintro hlastly ⟨hnow, hbut⟩
      rcases heq with heq | ⟨x, hx, heq⟩
      · exact hnow (heq.symm.trans hlastly)
      · obtain ⟨r, held, hstanding, rfl⟩ := mem_versionsStanding.1 hx
        refine hbut r held hstanding ?_
        rw [← hlastly, heq]
        exact (UInt64.add_sub_cancel _ _).symm
    · intro h
      have htop : lastVersion ≤ (versionsStanding ns d cell).foldl past now := by
        by_contra hnot
        have hlow := UInt64.not_le.1 hnot
        refine h ⟨?_, fun r held hstanding heq' => ?_⟩
        · rintro rfl
          exact hnot hle
        · have hover := hbelow r held hstanding
          rw [heq', UInt64.lt_iff_toNat_lt] at hover
          rw [UInt64.lt_iff_toNat_lt] at hlow
          rw [show (lastVersion - 1).toNat = 2 ^ 64 - 2 from rfl] at hover
          rw [show lastVersion.toNat = 2 ^ 64 - 1 from rfl] at hlow
          omega
      apply UInt64.toNat.inj
      have hlt' := ((versionsStanding ns d cell).foldl past now).toNat_lt
      rw [UInt64.le_iff_toNat_le, show lastVersion.toNat = 2 ^ 64 - 1 from rfl] at htop
      rw [show lastVersion.toNat = 2 ^ 64 - 1 from rfl]
      omega

end Version

/-! ## What is written -/

/-- A node that writes may set a cell, at `rank`. -/
structure WriteJudged (w : SettingsWriter J) (n : CellName) (cell : Bytes32) (rank : SettingRank) :
    Prop where
  applies : w.node.apply ≠ none
  cell : cellOf w.node.hash n = some cell
  rank : w.rank w.pubkey n.scope n.about = some rank

/-- What a node that writes goes by: its hash answers, what it signs verifies, and its acts
stand at the rank it is judged to hold. -/
structure SettingsWriter.Sound (w : SettingsWriter J) : Prop where
  hash : ∃ H, w.node.hash = answering H
  verify : ∀ m sig, w.signer.sign m = some sig → w.node.verify.verify w.pubkey m sig = true
  acts : ∀ scope about r, w.rank w.pubkey scope about = some r →
    ∀ stands, w.node.apply = some stands → ∀ act, stands w.pubkey r act = true

theorem place_lt_of_version {a b : Setting} (h : a.version < b.version) : a.place < b.place := by
  rw [UInt64.lt_iff_toNat_lt] at h
  exact Prod.Lex.toLex_lt_toLex.2 (.inl h)

section Written

variable {w : SettingsWriter J} {now : ℕ → UInt64} {j : J} {d : SettingsDisk} {n : CellName}
  {cell : Bytes32} {rank : SettingRank} {set : Bool} {value bytes : Bytes}

/-- A write judged and issued is appended, and learned behind that. -/
theorem settingsWrite_eq (hjudged : WriteJudged w n cell rank)
    (hissue : settingIssue w.signer (w.written d (now 0) n cell rank set value) = .ok bytes) :
    settingsWrite w now j d n set value =
      match w.append j bytes (now 1 * 1000) with
      | none => (.journal, j, d)
      | some j' =>
        (.err (settingsLearn { w.node with now := now 2 } d bytes rank).1, j',
          (settingsLearn { w.node with now := now 2 } d bytes rank).2) := by
  unfold settingsWrite
  rw [if_neg hjudged.applies, hjudged.cell]
  dsimp only
  rw [hjudged.rank]
  dsimp only
  rw [hissue]

section

variable (hsound : w.Sound) (hjudged : WriteJudged w n cell rank) (hanswers : d.outcomes = [])
  (hissue : settingIssue w.signer (w.written d (now 0) n cell rank set value) = .ok bytes)
include hsound hjudged hanswers hissue

/-- **What is written past every version standing is learned.** -/
theorem learn_written (hlast : NoneAt w.node d cell lastVersion) :
    ∃ row, settingRowOf w.node.hash cell rank = some row ∧
      settingOpen w.node.verify bytes = .ok (w.written d (now 0) n cell rank set value) ∧
        settingsLearn { w.node with now := now 2 } d bytes rank =
          (.ok, ⟨d.rows.insert row (rowBytes rank (now 2) bytes), []⟩) := by
  obtain ⟨H, hhash⟩ := hsound.hash
  obtain ⟨row, hrow⟩ := settingRowOf_answers hhash cell rank
  obtain ⟨hpast, -⟩ := writeVersion_spec hlast (now 0)
  have hopen : settingOpen w.node.verify bytes =
      .ok (w.written d (now 0) n cell rank set value) :=
    settingOpen_issue hissue fun sig hsign => hsound.verify _ sig hsign
  refine ⟨row, hrow, hopen, ?_⟩
  have hfree : metBy (standing w.node d cell rank) (w.written d (now 0) n cell rank set value)
      bytes = none := by
    cases hstanding : standing w.node d cell rank with
    | none => rfl
    | some held =>
      obtain ⟨held, heldBytes⟩ := held
      have hlt := hpast rank _ hstanding
      refine metBy_eq_none_iff.2 ⟨?_, place_lt_of_version hlt⟩
      rintro rfl
      obtain ⟨-, -, -, -, -, hopen', -⟩ := (standing_iff hrow).1 hstanding
      obtain rfl := Except.ok.inj (hopen'.symm.trans hopen)
      exact UInt64.lt_irrefl _ hlt
  have hcell : settingCell w.node.hash (w.written d (now 0) n cell rank set value) = some cell :=
    hjudged.cell
  unfold settingsLearn
  dsimp only
  rw [hopen]
  dsimp only
  rw [hcell]
  dsimp only
  rw [show standing { w.node with now := now 2 } d cell rank = standing w.node d cell rank from
    rfl, hfree]
  dsimp only
  rw [hrow]
  dsimp only
  rw [rowSave, if_neg (not_lt.2 (settingOpen_length hopen).2), Disk.save_of_nil hanswers]
  rfl

/-- **A write takes effect or nothing is published**, where no setting standing is of the last
version, and only there. -/
theorem write_effect :
    ((∀ r held, standing w.node d cell r = some held →
        held.1.version < (w.written d (now 0) n cell rank set value).version) ∧
      (settingsWrite w now j d n set value).1 ≠ .err .stale ∧
      ((settingsWrite w now j d n set value).1 ≠ .err .ok →
        (settingsWrite w now j d n set value).2.1 = j)) ↔ NoneAt w.node d cell lastVersion := by
  constructor
  · rintro ⟨hpast, -⟩ r held hstanding heq
    have hlt := hpast r held hstanding
    rw [heq, UInt64.lt_iff_toNat_lt, show lastVersion.toNat = 2 ^ 64 - 1 from rfl] at hlt
    have hover := (w.written d (now 0) n cell rank set value).version.toNat_lt
    omega
  · intro hlast
    obtain ⟨row, -, -, hlearn⟩ := learn_written hsound hjudged hanswers hissue hlast
    refine ⟨(writeVersion_spec hlast (now 0)).1, ?_⟩
    rw [settingsWrite_eq hjudged hissue]
    cases w.append j bytes (now 1 * 1000) with
    | none => exact ⟨nofun, fun _ => rfl⟩
    | some j' =>
      dsimp only
      rw [hlearn]
      exact ⟨nofun, fun h => absurd rfl h⟩

end

/-! ## The revert -/

/-- A write that answers OK was issued and appended, and stands. -/
theorem write_ok (hsound : w.Sound) (hjudged : WriteJudged w n cell rank) (hanswers : d.outcomes = [])
    (hlast : NoneAt w.node d cell lastVersion)
    (hrows : w.node.hash.InjOn {x | ∃ r, x = settingRowInput cell r}) {j' : J}
    {d' : SettingsDisk} (h : settingsWrite w now j d n set value = (.err .ok, j', d')) :
    ∃ bytes, standing w.node d' cell rank =
      some (w.written d (now 0) n cell rank set value, bytes) ∧
        ∀ r, r ≠ rank → standing w.node d' cell r = standing w.node d cell r := by
  cases hissue : settingIssue w.signer (w.written d (now 0) n cell rank set value) with
  | error e =>
    unfold settingsWrite at h
    rw [if_neg hjudged.applies, hjudged.cell] at h
    dsimp only at h
    rw [hjudged.rank] at h
    dsimp only at h
    rw [hissue] at h
    cases h
  | ok bytes =>
    obtain ⟨row, hrow, hopen, hlearn⟩ := learn_written hsound hjudged hanswers hissue hlast
    rw [settingsWrite_eq hjudged hissue] at h
    cases happend : w.append j bytes (now 1 * 1000) with
    | none => rw [happend] at h; cases h
    | some j'' =>
      rw [happend] at h
      dsimp only at h
      rw [hlearn] at h
      obtain ⟨-, hrest⟩ := Prod.mk.inj h
      obtain ⟨-, rfl⟩ := Prod.mk.inj hrest
      obtain ⟨H, hhash⟩ := hsound.hash
      obtain ⟨stands, happly⟩ := Option.ne_none_iff_exists'.1 hjudged.applies
      have hact : actStands w.node (w.written d (now 0) n cell rank set value) rank bytes =
          true := by
        unfold actStands
        rw [happly, hhash]
        exact hsound.acts _ _ rank hjudged.rank stands happly _
      refine ⟨bytes, ?_, fun r hr => ?_⟩
      · refine (standing_iff hrow).2 ⟨_, now 2, AList.lookup_insert _, ?_,
          rowRead_rowBytes rank (now 2) (ne_nil_of_open hopen), hopen, hjudged.cell, hact⟩
        rw [length_rowBytes, rowMax]
        exact Nat.add_le_add_left (settingOpen_length hopen).2 _
      · obtain ⟨row', hrow'⟩ := settingRowOf_answers hhash cell r
        have hne : row' ≠ row := by
          rintro rfl
          exact hr (settingRowInput_inj (hrows _ ⟨r, rfl⟩ _ ⟨rank, rfl⟩ _ hrow' hrow)).2
        unfold standing settingsLoad Disk.load
        rw [hrow']
        dsimp only
        rw [AList.lookup_insert_ne hne]

/-- What a staged write that answers OK has read back and signed. -/
theorem staged_ok (hjudged : WriteJudged w n cell rank) {j' : J} {d' : SettingsDisk} {revert : Bytes}
    (h : settingsWriteStaged w now j d n value = (.err .ok, j', d', some revert)) :
    settingsWrite w now j d n true value = (.err .ok, j', d') ∧ ∃ r s,
      inForce w.node d' cell = some (r, s) ∧ s.setter = w.pubkey ∧
        settingIssue w.signer (w.undoing s.version n rank (settingsGet w.node d n)) =
          .ok revert := by
  unfold settingsWriteStaged at h
  rw [if_neg hjudged.applies] at h
  dsimp only at h
  rcases hwrite : settingsWrite w now j d n true value with ⟨err, j₁, d₁⟩
  rw [hwrite] at h
  by_cases hok : err = .err .ok
  · subst hok
    dsimp only at h
    rw [hjudged.rank] at h
    cases hof : settingsStandingOf w.node d₁ n with
    | none => rw [hof] at h; cases h
    | some top =>
      obtain ⟨version, setter⟩ := top
      rw [hof] at h
      dsimp only at h
      obtain ⟨hown, h⟩ := past_check h nofun
      cases hissue : settingIssue w.signer
          (w.undoing version n rank (settingsGet w.node d n)) with
      | error e => rw [hissue] at h; cases h
      | ok bytes =>
        rw [hissue] at h
        cases h
        unfold settingsStandingOf at hof
        rw [hjudged.cell] at hof
        obtain ⟨⟨r, s⟩, hforce, heq⟩ := Option.map_eq_some_iff.1 hof
        obtain ⟨rfl, rfl⟩ := Prod.mk.inj heq
        exact ⟨rfl, r, s, hforce, not_not.1 hown, hissue⟩
  · split at h
    next heq =>
      obtain ⟨rfl, -⟩ := Prod.mk.inj heq
      exact absurd rfl hok
    next heq =>
      obtain ⟨rfl, -⟩ := Prod.mk.inj heq
      cases h

theorem supersedes_of_version {a b : Setting} (h : a.version ≠ b.version) :
    supersedes a b = decide (b.version < a.version) := by
  unfold supersedes
  rw [if_pos h]

/-- A clear of one's own no newer than a set does not supersede it. -/
theorem not_supersedes_of_clear {a b : Setting} (hversion : ¬b.version < a.version)
    (hsetter : a.setter = b.setter) (ha : a.set = false) (hb : b.set = true) :
    supersedes a b = false := by
  unfold supersedes
  split
  next => exact decide_eq_false hversion
  next => rw [if_neg (not_not.2 hsetter), ha, hb, if_pos (show false ≠ true from Bool.noConfusion)]

/-- One version past another, unless there is none. -/
theorem lt_version_succ (v : UInt64) : v + 1 ≠ v ∧ (v < v + 1 ↔ v ≠ lastVersion) := by
  have hadd : (v + 1).toNat = (v.toNat + 1) % 2 ^ 64 := UInt64.toNat_add v 1
  have hlt := v.toNat_lt
  have hmax : v ≠ lastVersion ↔ v.toNat ≠ 2 ^ 64 - 1 := by
    rw [Ne, ← UInt64.toNat_inj]
    exact Iff.rfl
  rw [hmax, UInt64.lt_iff_toNat_lt, Ne, ← UInt64.toNat_inj, hadd]
  omega

/-- **The revert supersedes what it is to undo** where two versions are left past all there
are, and no rank above the writer's has a value in force, and only there. -/
theorem revert_supersedes (hsound : w.Sound) (hjudged : WriteJudged w n cell rank)
    (hanswers : d.outcomes = []) (hlast : NoneAt w.node d cell lastVersion)
    (hrows : w.node.hash.InjOn {x | ∃ r, x = settingRowInput cell r}) {j' : J}
    {d' : SettingsDisk} {revert : Bytes}
    (h : settingsWriteStaged w now j d n value = (.err .ok, j', d', some revert)) :
    ∃ s bytes undo, standing w.node d' cell rank = some (s, bytes) ∧
      settingOpen w.node.verify revert = .ok undo ∧
        (supersedes undo s = true ↔ now 0 ≠ lastVersion ∧
          NoneAt w.node d cell (lastVersion - 1) ∧
            ∀ r held, rank.Below r → standing w.node d cell r = some held →
              held.1.set = false) := by
  obtain ⟨hwrite, r, s, hforce, hown, hissue⟩ := staged_ok hjudged h
  obtain ⟨bytes, hwritten, hother⟩ := write_ok hsound hjudged hanswers hlast hrows hwrite
  have hopen := settingOpen_issue hissue fun sig hsign => hsound.verify _ sig hsign
  refine ⟨_, bytes, _, hwritten, hopen, ?_⟩
  obtain ⟨hset, ⟨held, hstanding⟩, habove⟩ := inForce_iff.1 hforce
  obtain ⟨hpast, hwhen⟩ := writeVersion_spec hlast (now 0)
  by_cases hover : rank.Below r
  · -- what is in force is the writer's own, from above: it is older, and a clear undoes it
    have hne := hover.ne
    rw [hother r hne] at hstanding
    have hbefore : inForce w.node d cell = some (r, s) := by
      refine inForce_iff.2 ⟨hset, ⟨held, hstanding⟩, fun r' s' bytes' hlt hstanding' => ?_⟩
      exact habove r' s' bytes' hlt ((hother r' (hover.trans hlt).ne).trans hstanding')
    have hprior : settingsGet w.node d n = some (s.value, r) := by
      unfold settingsGet
      rw [hjudged.cell]
      dsimp only
      rw [hbefore]
      rfl
    have hclear : (w.undoing s.version n rank (settingsGet w.node d n)).set = false := by
      unfold SettingsWriter.undoing
      rw [hprior]
      dsimp only
      rw [Option.filter_some, if_neg (by rw [decide_eq_true_eq]; exact hne)]
      rfl
    have hle : ¬(w.written d (now 0) n cell rank true value).version <
        (w.undoing s.version n rank (settingsGet w.node d n)).version := by
      have hlt : s.version < writeVersion w.node d cell (now 0) := hpast r _ hstanding
      show ¬writeVersion w.node d cell (now 0) < s.version + 1
      rw [UInt64.lt_iff_toNat_lt] at hlt ⊢
      rw [UInt64.toNat_add, show (1 : UInt64).toNat = 1 from rfl]
      have hmod := Nat.mod_le (s.version.toNat + 1) (2 ^ 64)
      omega
    refine iff_of_false ?_ fun hall => ?_
    · rw [not_supersedes_of_clear hle rfl hclear rfl]
      exact Bool.noConfusion
    · exact Bool.noConfusion (hset.symm.trans (hall.2.2 r _ hover hstanding))
  · have hr : r = rank := by
      rcases rank.below_or_eq r with hlt | heq | hlt
      · exact absurd hlt hover
      · exact heq.symm
      · exact absurd (habove rank _ bytes hlt hwritten) Bool.noConfusion
    subst hr
    obtain ⟨rfl, -⟩ := Prod.mk.inj (Option.some.inj (hwritten.symm.trans hstanding))
    have hlower : ∀ r' held, r.Below r' → standing w.node d cell r' = some held →
        held.1.set = false := by
      intro r' held' hlt hstanding'
      exact habove r' held'.1 held'.2 hlt ((hother r' hlt.ne).trans hstanding')
    have hwhole : (now 0 ≠ lastVersion ∧ NoneAt w.node d cell (lastVersion - 1)) ↔
        writeVersion w.node d cell (now 0) ≠ lastVersion :=
      ((not_congr hwhen).trans not_not).symm
    rw [← and_assoc, and_iff_left hlower, hwhole]
    obtain ⟨hne, hiff⟩ := lt_version_succ (writeVersion w.node d cell (now 0))
    exact (congrArg (· = true) (supersedes_of_version hne)).to_iff.trans
      (decide_eq_true_iff.trans hiff)

end Written

/-- **A setting written takes effect or is not published**, and its revert undoes it: exactly
where one version is left past every one standing, and for the revert two, with nothing in
force from above the writer's rank. -/
theorem settings_write {w : SettingsWriter J} {d : SettingsDisk} {n : CellName} {cell : Bytes32}
    {rank : SettingRank} (hsound : w.Sound) (hjudged : WriteJudged w n cell rank)
    (hanswers : d.outcomes = [])
    (hrows : w.node.hash.InjOn {x | ∃ r, x = settingRowInput cell r}) (now : ℕ → UInt64) (j : J) :
    (∀ set value bytes,
      settingIssue w.signer (w.written d (now 0) n cell rank set value) = .ok bytes →
        (((∀ r held, standing w.node d cell r = some held →
            held.1.version < (w.written d (now 0) n cell rank set value).version) ∧
          (settingsWrite w now j d n set value).1 ≠ .err .stale ∧
          ((settingsWrite w now j d n set value).1 ≠ .err .ok →
            (settingsWrite w now j d n set value).2.1 = j)) ↔
          NoneAt w.node d cell lastVersion)) ∧
    (NoneAt w.node d cell lastVersion → ∀ value j' d' revert,
      settingsWriteStaged w now j d n value = (.err .ok, j', d', some revert) →
        ∃ s bytes undo, standing w.node d' cell rank = some (s, bytes) ∧
          settingOpen w.node.verify revert = .ok undo ∧
            (supersedes undo s = true ↔ now 0 ≠ lastVersion ∧
              NoneAt w.node d cell (lastVersion - 1) ∧
                ∀ r held, rank.Below r → standing w.node d cell r = some held →
                  held.1.set = false)) :=
  ⟨fun _ _ _ hissue => write_effect hsound hjudged hanswers hissue,
    fun hlast _ _ _ _ h => revert_supersedes hsound hjudged hanswers hlast hrows h⟩

/-! ## A write past the last version -/

/-- A node that keeps what it appends in a list, and is judged a host. -/
def oneWriter : SettingsWriter (List Bytes) where
  node := { oneNode with apply := some fun _ _ _ => true }
  pubkey := 7
  signer := acceptingSign
  rank := fun _ _ _ => some .host
  append := fun j b _ => some (j ++ [b])

theorem oneWriter_sound : oneWriter.Sound :=
  ⟨⟨_, rfl⟩, fun _ _ _ => rfl, fun _ _ _ _ _ h _ => by cases h; rfl⟩

/-- The cell's key. -/
def oneCell : Bytes32 := (cellOf tailHash cellOfSetting).getD 0

theorem cellOf_oneCell : cellOf tailHash cellOfSetting = some oneCell := by decide +kernel

/-- Another host's third version stands at the host's rank. -/
def thirdStands : SettingsDisk := learnRun oneNode [⟨settingOf 8 3 true [118], .host, 4⟩]

/-- The third version is all that stands. -/
theorem standing_thirdStands {r : SettingRank} {held : Setting × Bytes}
    (h : standing oneWriter.node thirdStands oneCell r = some held) :
    r = .host ∧ held.1.version = 3 := by
  have hall : (standing oneWriter.node thirdStands oneCell r).map (fun held => held.1.version) =
      if r = .host then some 3 else none := by
    cases r <;> decide +kernel
  rw [h] at hall
  split at hall
  next hr => exact ⟨hr, Option.some.inj hall⟩
  next => cases hall

/-- A write over the third version, by a clock that is behind it: it takes effect, and its revert
supersedes it. -/
theorem settings_write_over :
    (settingsWrite oneWriter (fun _ => 1) [] thirdStands cellOfSetting true [119]).1 ≠
        .err .stale ∧
      ∃ s bytes undo, standing oneWriter.node
          (settingsWriteStaged oneWriter (fun _ => 1) [] thirdStands cellOfSetting [119]).2.2.1
          oneCell .host = some (s, bytes) ∧
        ((settingsWriteStaged oneWriter (fun _ => 1) [] thirdStands cellOfSetting [119]).2.2.2.bind
          fun b => (settingOpen acceptingSign b).toOption) = some undo ∧
        supersedes undo s = true := by
  have hrows : tailHash.InjOn {x | ∃ r, x = settingRowInput oneCell r} := by
    rintro x ⟨r, rfl⟩ y ⟨r', rfl⟩
    exact oneNode_injOn _ ⟨_, rfl, .inr ⟨_, r, cellOf_oneCell, rfl⟩⟩ _
      ⟨_, rfl, .inr ⟨_, r', cellOf_oneCell, rfl⟩⟩
  have hnone : ∀ v, v ≠ 3 → NoneAt oneWriter.node thirdStands oneCell v := by
    intro v hv r held hheld hat
    exact hv (hat.symm.trans (standing_thirdStands hheld).2)
  have hanswers : thirdStands.outcomes = [] := by decide +kernel
  have hwrite := settings_write oneWriter_sound ⟨Option.some_ne_none _, cellOf_oneCell, rfl⟩
    hanswers hrows (fun _ => 1) []
  have hissue := @settingIssue_formed oneWriter.signer
    (oneWriter.written thirdStands 1 cellOfSetting oneCell .host true [119]) 0
    ⟨(by decide : settingKeyOk [97] = true), Bool.noConfusion,
      (by decide : valueOk [119] = true), Scope.noConfusion⟩ rfl
  refine ⟨((hwrite.1 true [119] _ hissue).2 (hnone _ (by decide))).2.1, ?_⟩
  have hok : (settingsWriteStaged oneWriter (fun _ => 1) [] thirdStands cellOfSetting [119]).1 =
        .err .ok ∧
      (settingsWriteStaged oneWriter (fun _ => 1) [] thirdStands cellOfSetting
        [119]).2.2.2.isSome = true := by decide +kernel
  revert hok
  generalize hstaged : settingsWriteStaged oneWriter (fun _ => 1) [] thirdStands cellOfSetting
    [119] = staged
  obtain ⟨err, j', d', revert⟩ := staged
  rintro ⟨rfl, hsome⟩
  obtain ⟨revert, rfl⟩ := Option.isSome_iff_exists.1 hsome
  obtain ⟨s, bytes, undo, hs, hundo, hiff⟩ := hwrite.2 (hnone _ (by decide)) [119] j' d' revert hstaged
  refine ⟨s, bytes, undo, hs, ?_, hiff.2 ⟨by decide, hnone _ (by decide), fun r held hr hheld => ?_⟩⟩
  · rw [Option.bind_some, show settingOpen acceptingSign revert = .ok undo from hundo]
    rfl
  · rw [(standing_thirdStands hheld).1] at hr
    exact absurd hr (by decide)

/-- A setting of the last version stands at the host's rank: what is written behind it is
published and stale.  And a staged write at the last version is undone by version 0. -/
theorem write_past_last :
    (settingsWrite oneWriter (fun _ => 5) [] (learnRun oneNode
      [⟨settingOf 8 (2 ^ 64 - 1) true [118], .host, 4⟩]) cellOfSetting true [119]).1 =
        .err .stale ∧
    (settingsWrite oneWriter (fun _ => 5) [] (learnRun oneNode
      [⟨settingOf 8 (2 ^ 64 - 1) true [118], .host, 4⟩]) cellOfSetting true [119]).2.1.length =
        1 ∧
    (settingsWriteStaged oneWriter (fun _ => lastVersion) [] ⟨∅, []⟩ cellOfSetting [118]).1 =
      .err .ok ∧
    ((settingsWriteStaged oneWriter (fun _ => lastVersion) [] ⟨∅, []⟩ cellOfSetting
      [118]).2.2.2.bind fun b => (settingOpen acceptingSign b).toOption).map
        (fun s => (s.version, s.set)) = some (0, false) := by
  decide +kernel

end Node
end Fuzznet
