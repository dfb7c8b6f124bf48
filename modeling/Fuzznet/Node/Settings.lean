/-
# The estate's settings, as a node keeps them

`node/settings.c`, over the settings slot of a store.  A row of a cell at a rank is filed
under a hash of both and holds the setting standing there, with when it was learned:

| off | size | field |
| ---: | ---: | --- |
| 0 | 1 | the rank, its top bit set |
| 1 | 8 | when it was learned |
| 9 |  | the setting |

A row written before rows were stamped is the rank and the setting.  The slot holds the
objects set aside as well, each behind a byte that is no rank and under a hash of itself,
and how many there are.

What of the store may fail is told by its `outcomes`; a process stopped behind one of its
writes is one whose every write behind that one is refused.
-/

import Fuzznet.Lib.Disk
import Fuzznet.State.Setting
import Fuzznet.Wire.Codec

namespace Fuzznet
namespace Node

open Wire Lib State
open Session (bytes32)

/-- The slot `FZN_PERSIST_SETTING`. -/
abbrev SettingsDisk := Disk Bytes32 Bytes

/-- `fzn_node_settings_err_t`. -/
inductive SettingsErr
  | ok
  | malformed
  | refused
  | stale
  | backend
  deriving DecidableEq, Repr

/-- `fzn_node_settings_t`, of what is read here; `apply` is
`fzn_node_apply_act_stands` of its context, none for no context. -/
structure Settings where
  hash : HashOps
  verify : SignOps
  apply : Option (Key → SettingRank → Bytes32 → Bool)
  now : UInt64

/-! ## Rows -/

/-- `ROW_STAMPED`, `ROW_HEAD` and `ROW_MAX`. -/
def rowStamped : UInt8 := 0x80
def rowHead : ℕ := 9
def rowMax : ℕ := rowHead + settingMax

/-- A row's parts. -/
structure SettingRow where
  rank : SettingRank
  learned : UInt64
  setting : Bytes
  deriving DecidableEq

/-- `row_read`. -/
def rowRead (row : Bytes) : Option SettingRow :=
  if row.length < 2 then none
  else if row.getD 0 0 &&& rowStamped ≠ 0 then
    if row.length ≤ rowHead then none
    else (rankOfByte (row.getD 0 0 &&& ~~~rowStamped)).map fun rank =>
      ⟨rank, UInt64.ofNat (getBe row 1 8), row.drop rowHead⟩
  else (rankOfByte (row.getD 0 0)).map fun rank => ⟨rank, 0, row.drop 1⟩

/-- A row as it is written. -/
def rowBytes (rank : SettingRank) (learned : UInt64) (bytes : Bytes) : Bytes :=
  (rowStamped ||| rank.byte) :: (putBe 8 learned.toNat ++ bytes)

/-- A row, where it is no longer than the room for it. -/
def settingsLoad (d : SettingsDisk) (row : Bytes32) (max : ℕ) : Option Bytes :=
  (d.load row).filter fun held => decide (held.length ≤ max)

/-- `row_save`. -/
def rowSave (d : SettingsDisk) (row : Bytes32) (rank : SettingRank) (learned : UInt64)
    (bytes : Bytes) : Bool × SettingsDisk :=
  if settingMax < bytes.length then (false, d) else d.save row (rowBytes rank learned bytes)

/-- What `row_of` hashes. -/
def settingRowInput (cell : Bytes32) (rank : SettingRank) : Bytes :=
  ascii "fuzznet.setting.row" ++ (bytes32 cell ++ [rank.byte])

/-- `row_of`. -/
def settingRowOf (hash : HashOps) (cell : Bytes32) (rank : SettingRank) : Option Bytes32 :=
  hash.hash (settingRowInput cell rank)

/-! ## What stands -/

/-- Whether a setter's act still stands. -/
def actStands (ns : Settings) (s : Setting) (rank : SettingRank) (bytes : Bytes) : Bool :=
  match ns.apply with
  | none => true
  | some stands => (ns.hash.hash bytes).any fun act => stands s.setter rank act

/-- A row that says it is `cell`'s at `rank`, and what it holds. -/
def rowStands (ns : Settings) (cell : Bytes32) (rank : SettingRank) (held : Bytes) :
    Option (Setting × Bytes) :=
  match rowRead held with
  | none => none
  | some row =>
    match settingOpen ns.verify row.setting with
    | .error _ => none
    | .ok s =>
      if row.rank = rank ∧ settingCell ns.hash s = some cell ∧
          actStands ns s rank row.setting = true then some (s, row.setting)
      else none

/-- `standing`: the setting standing for `cell` at `rank`, and its bytes. -/
def standing (ns : Settings) (d : SettingsDisk) (cell : Bytes32) (rank : SettingRank) :
    Option (Setting × Bytes) :=
  match settingRowOf ns.hash cell rank with
  | none => none
  | some row => (settingsLoad d row rowMax).bind (rowStands ns cell rank)

/-- What a setting meets where it is to be learned: an answer, or nothing in its way. -/
def metBy (held : Option (Setting × Bytes)) (s : Setting) (bytes : Bytes) : Option SettingsErr :=
  match held with
  | none => none
  | some (held, heldBytes) =>
    if heldBytes = bytes then some .ok
    else if supersedes s held = false then some .stale
    else none

/-- `fzn_node_settings_learn`. -/
def settingsLearn (ns : Settings) (d : SettingsDisk) (bytes : Bytes) (rank : SettingRank) :
    SettingsErr × SettingsDisk :=
  match settingOpen ns.verify bytes with
  | .error _ => (.refused, d)
  | .ok s =>
    match settingCell ns.hash s with
    | none => (.refused, d)
    | some cell =>
      match metBy (standing ns d cell rank) s bytes with
      | some err => (err, d)
      | none =>
        match settingRowOf ns.hash cell rank with
        | none => (.backend, d)
        | some row =>
          let saved := rowSave d row rank ns.now bytes
          (if saved.1 then .ok else .backend, saved.2)

/-- The setting standing for `cell` at `rank`, where it sets a value. -/
def sets (ns : Settings) (d : SettingsDisk) (cell : Bytes32) (rank : SettingRank) :
    Option (SettingRank × Setting) :=
  (standing ns d cell rank).bind fun held => if held.1.set then some (rank, held.1) else none

/-- `in_force`: the highest rank whose standing setting sets a value. -/
def inForce (ns : Settings) (d : SettingsDisk) (cell : Bytes32) : Option (SettingRank × Setting) :=
  [SettingRank.root, .admin, .host].findSome? (sets ns d cell)

/-- `fzn_node_settings_get`. -/
def settingsGet (ns : Settings) (d : SettingsDisk) (n : CellName) : Option (Bytes × SettingRank) :=
  match cellOf ns.hash n with
  | none => none
  | some cell => (inForce ns d cell).map fun top => (top.2.value, top.1)

/-- `fzn_node_settings_standing_of`: the version and the setter in force. -/
def settingsStandingOf (ns : Settings) (d : SettingsDisk) (n : CellName) : Option (UInt64 × Key) :=
  match cellOf ns.hash n with
  | none => none
  | some cell => (inForce ns d cell).map fun top => (top.2.version, top.2.setter)

/-- `each_walked`: what one row reports. -/
def eachWalked (ns : Settings) (d : SettingsDisk) (row : Bytes32) :
    Option (Setting × SettingRank) :=
  match (settingsLoad d row rowMax).bind rowRead with
  | none => none
  | some held =>
    match settingOpen ns.verify held.setting with
    | .error _ => none
    | .ok s =>
      if s.set = false then none
      else
        match settingCell ns.hash s with
        | none => none
        | some cell =>
          if settingRowOf ns.hash cell held.rank = some row ∧
              (inForce ns d cell).map Prod.fst = some held.rank then some (s, held.rank)
          else none

/-- `fzn_node_settings_each`, of a walk that runs to its end: what it reports. -/
def settingsEach (ns : Settings) (d : SettingsDisk) : List (Setting × SettingRank) :=
  d.rows.keys.filterMap (eachWalked ns d)

/-! ## Objects set aside -/

/-- `ROW_PARKED` and `ROW_PARKED_COUNT`. -/
def rowParked : UInt8 := 0x40
def rowParkedCount : UInt8 := 0x41

/-- What `parked_row` hashes. -/
def parkedInput (bytes : Bytes) : Bytes := ascii "fuzznet.setting.parked" ++ bytes

/-- What `parked_count_row` hashes. -/
def parkedCountInput : Bytes := ascii "fuzznet.setting.parked.count"

/-- `parked_row`. -/
def parkedRow (hash : HashOps) (bytes : Bytes) : Option Bytes32 :=
  if settingMax < bytes.length then none else hash.hash (parkedInput bytes)

/-- `parked_count_row`. -/
def parkedCountRow (hash : HashOps) : Option Bytes32 := hash.hash parkedCountInput

/-- `parked_count`. -/
def parkedCount (hash : HashOps) (d : SettingsDisk) : UInt64 :=
  match (parkedCountRow hash).bind fun row => settingsLoad d row 9 with
  | none => 0
  | some held =>
    if held.length ≠ 9 ∨ held.getD 0 0 ≠ rowParkedCount then 0 else UInt64.ofNat (getBe held 1 8)

/-- `parked_count_save`. -/
def parkedCountSave (hash : HashOps) (d : SettingsDisk) (n : UInt64) : Bool × SettingsDisk :=
  match parkedCountRow hash with
  | none => (false, d)
  | some row => d.save row (rowParkedCount :: putBe 8 n.toNat)

/-- Whether a row is there that is `bytes` set aside, by its length and its first byte. -/
def parkedAlready (d : SettingsDisk) (row : Bytes32) (bytes : Bytes) : Bool :=
  (settingsLoad d row (1 + settingMax)).any fun held =>
    held.length == 1 + bytes.length && held.getD 0 0 == rowParked

/-- `fzn_node_settings_park`. -/
def settingsPark (hash : HashOps) (d : SettingsDisk) (bytes : Bytes) : SettingsErr × SettingsDisk :=
  if bytes = [] ∨ settingMax < bytes.length then (.malformed, d)
  else
    match parkedRow hash bytes with
    | none => (.backend, d)
    | some row =>
      if parkedAlready d row bytes then (.ok, d)
      else
        let saved := d.save row (rowParked :: bytes)
        if saved.1 = false then (.backend, saved.2)
        else
          let counted := parkedCountSave hash saved.2 (parkedCount hash saved.2 + 1)
          (if counted.1 then .ok else .backend, counted.2)

/-- The object a row sets aside. -/
def loadParked (d : SettingsDisk) (row : Bytes32) : Option Bytes :=
  (settingsLoad d row (1 + settingMax)).bind fun held =>
    if held.length < 2 ∨ held.getD 0 0 ≠ rowParked then none else some held.tail

/-- `parked_walked`. -/
def parkedWalked (d : SettingsDisk) (row : Bytes32) : Option Bytes32 :=
  (loadParked d row).map fun _ => row

/-- Whether a row is of an object set aside, or the count of them. -/
def OfParked (held : Bytes) : Prop := held.head? = some rowParked ∨ held.head? = some rowParkedCount

/-- `fzn_node_settings_judge_fn`: its verdict, and what it does to the slot, where it
learns settings and sets nothing aside. -/
structure ParkedJudge where
  judge : SettingsDisk → Bytes → ℤ × SettingsDisk
  keeps : ∀ d bytes row held, OfParked held →
    ((judge d bytes).2.load row = some held ↔ d.load row = some held)

/-- How far an unparking has come; `calls` are those of the judge. -/
structure Unparking where
  disk : SettingsDisk
  removed : ℕ
  taken : ℕ
  failed : Bool
  calls : List (Bytes × ℤ)

/-- One row of the second loop. -/
def unparkRow (judge : ParkedJudge) (u : Unparking) (row : Bytes32) : Unparking :=
  match loadParked u.disk row with
  | none => u
  | some bytes =>
    let judged := judge.judge u.disk bytes
    let calls := u.calls ++ [(bytes, judged.1)]
    if judged.1 = 0 then { u with disk := judged.2, calls := calls }
    else
      let gone := judged.2.remove row
      if gone.1 = false then { u with disk := gone.2, failed := true, calls := calls }
      else
        { u with
          disk := gone.2
          removed := u.removed + 1
          taken := if 0 < judged.1 then u.taken + 1 else u.taken
          calls := calls }

/-- `fzn_node_settings_unpark`; the walk is the first of the disk's operations. -/
def settingsUnpark (hash : HashOps) (judge : ParkedJudge) (d : SettingsDisk) :
    SettingsErr × Unparking :=
  if parkedCount hash d = 0 then (.ok, ⟨d, 0, 0, false, []⟩)
  else
    match d.list (parkedWalked d) d.rows.keys.length with
    | (none, d') => (.backend, ⟨d', 0, 0, false, []⟩)
    | (some rows, d') =>
      let u := rows.foldl (unparkRow judge) ⟨d', 0, 0, false, []⟩
      let counted := parkedCountSave hash u.disk (UInt64.ofNat (rows.length - u.removed))
      (if u.failed || !counted.1 then .backend else .ok, { u with disk := counted.2 })

/-! ## Rows read back -/

theorem length_rowBytes (r : SettingRank) (t : UInt64) (bytes : Bytes) :
    (rowBytes r t bytes).length = rowHead + bytes.length := by
  rw [rowBytes, List.length_cons, List.length_append, length_putBe, rowHead]
  omega

/-- **A row reads back as it was written.** -/
theorem rowRead_rowBytes (r : SettingRank) (t : UInt64) {bytes : Bytes} (hne : bytes ≠ []) :
    rowRead (rowBytes r t bytes) = some ⟨r, t, bytes⟩ := by
  have hlen := length_rowBytes r t bytes
  have hpos := List.length_pos_of_ne_nil hne
  have hhead : (rowBytes r t bytes).getD 0 0 = rowStamped ||| r.byte := rfl
  have hstamped : (rowStamped ||| r.byte) &&& rowStamped ≠ 0 := by
    cases r <;> decide
  have hrank : (rowStamped ||| r.byte) &&& ~~~rowStamped = r.byte := by
    cases r <;> rfl
  have hlearned : getBe (rowBytes r t bytes) 1 8 = t.toNat := by
    rw [rowBytes, getBe_cons Nat.one_pos]
    exact getBe_putBe_of_lt bytes t.toNat_lt
  have hrest : (rowBytes r t bytes).drop rowHead = bytes := by
    rw [rowBytes, rowHead, List.drop_succ_cons, List.drop_left' (length_putBe 8 _)]
  unfold rowRead
  rw [if_neg (by rw [hlen, rowHead]; omega), hhead, if_pos hstamped,
    if_neg (by rw [hlen]; omega), hrank, rankOfByte_byte, Option.map_some, hlearned, hrest,
    UInt64.ofNat_toNat]

/-- What stands is what its row says, of this cell and this rank. -/
theorem standing_iff {ns : Settings} {d : SettingsDisk} {cell row : Bytes32} {rank : SettingRank}
    (hrow : settingRowOf ns.hash cell rank = some row) {s : Setting} {bytes : Bytes} :
    standing ns d cell rank = some (s, bytes) ↔ ∃ held t, d.load row = some held ∧
      held.length ≤ rowMax ∧ rowRead held = some ⟨rank, t, bytes⟩ ∧
        settingOpen ns.verify bytes = .ok s ∧ settingCell ns.hash s = some cell ∧
          actStands ns s rank bytes = true := by
  unfold standing
  rw [hrow]
  dsimp only
  rw [Option.bind_eq_some_iff]
  constructor
  · rintro ⟨held, hload, hstands⟩
    unfold rowStands at hstands
    cases hread : rowRead held with
    | none => rw [hread] at hstands; cases hstands
    | some parts =>
      rw [hread] at hstands
      dsimp only at hstands
      split at hstands
      next => cases hstands
      next s' hopen =>
        split at hstands
        next hall =>
          obtain ⟨rfl, rfl⟩ := Prod.mk.inj (Option.some.inj hstands)
          obtain ⟨hheld, hle⟩ := Option.filter_eq_some_iff.1 hload
          obtain ⟨rfl, hcell, hact⟩ := hall
          exact ⟨held, parts.learned, hheld, of_decide_eq_true hle, hread, hopen, hcell, hact⟩
        next => cases hstands
  · rintro ⟨held, t, hheld, hle, hread, hopen, hcell, hact⟩
    refine ⟨held, Option.filter_eq_some_iff.2 ⟨hheld, decide_eq_true hle⟩, ?_⟩
    unfold rowStands
    rw [hread]
    dsimp only
    rw [hopen]
    exact if_pos ⟨rfl, hcell, hact⟩

/-- Nothing is in a setting's way where nothing stands, or another it supersedes. -/
theorem metBy_eq_none_iff {s held : Setting} {bytes heldBytes : Bytes} :
    metBy (some (held, heldBytes)) s bytes = none ↔
      heldBytes ≠ bytes ∧ held.place < s.place := by
  unfold metBy
  dsimp only
  split
  next heq => exact ⟨nofun, fun h => absurd heq h.1⟩
  next hne =>
    rw [← supersedes_iff]
    split
    next hover => exact ⟨nofun, fun h => absurd (hover.symm.trans h.2) Bool.noConfusion⟩
    next hover => exact ⟨fun _ => ⟨hne, Bool.not_eq_false _ ▸ hover⟩, fun _ => rfl⟩

/-- A setting learned over a store that does not fail: its row is written where nothing
standing is in its way. -/
theorem settingsLearn_eq {ns : Settings} {d : SettingsDisk} (hanswers : d.outcomes = [])
    {bytes : Bytes} {s : Setting} {cell row : Bytes32} {rank : SettingRank}
    (hopen : settingOpen ns.verify bytes = .ok s) (hcell : settingCell ns.hash s = some cell)
    (hrow : settingRowOf ns.hash cell rank = some row) :
    (settingsLearn ns d bytes rank).2 =
      if metBy (standing ns d cell rank) s bytes = none then
        ⟨d.rows.insert row (rowBytes rank ns.now bytes), []⟩
      else d := by
  unfold settingsLearn
  rw [hopen]
  dsimp only
  rw [hcell]
  dsimp only
  cases hmet : metBy (standing ns d cell rank) s bytes with
  | some err => rw [if_neg (Option.some_ne_none err)]
  | none =>
    rw [if_pos rfl, hrow]
    dsimp only
    rw [rowSave, if_neg (not_lt.2 (settingOpen_length hopen).2), Disk.save_of_nil hanswers]

end Node
end Fuzznet
