/-
# One cell of the estate's configuration

`state/setting.c`: a setting opened from its bytes, the cell it is about, and which of two
settings of one cell supersedes the other.

The order is one of five parts, so it is a linear order of what a setting says
(`supersedes_iff`).  A cell is a hash of a scope, of what the setting is about in it and of a
key, and where no two of the inputs hashed share a hash it is those three
(`cellOf_inj`).

A setting is filed at a rank, and what is in force for a cell is of the set of settings
filed alone: at each rank the greatest of them by the order of `fzn_setting_supersedes`
counts, and of the ranks whose greatest sets a value the highest (`InForce`).  So a clear
that is the greatest at its rank withdraws that rank and no other (`inForce_withdrawn`), and
what is in force at a rank is no older than any clear of it there (`InForce.version_le`).
-/

import Fuzznet.Lib.Latest
import Fuzznet.Lib.Text
import Fuzznet.Session.Derive
import Mathlib.Data.List.Lex
import Mathlib.Data.Prod.Lex

namespace Fuzznet
namespace State

open Wire Lib
open Session (bytes32 length_bytes32 bytes32_append_inj)

/-- `fzn_scope_t`. -/
inductive Scope
  | hostPrivate
  | host
  | group
  | estate
  deriving DecidableEq, Repr

/-- The byte of a scope. -/
def Scope.byte : Scope → UInt8
  | .hostPrivate => 0
  | .host => 1
  | .group => 2
  | .estate => 3

/-- `fzn_setting_rank_t`. -/
inductive SettingRank
  | host
  | admin
  | root
  deriving DecidableEq, Repr

/-- The byte of a rank. -/
def SettingRank.byte : SettingRank → UInt8
  | .host => 0
  | .admin => 1
  | .root => 2

/-- The rank a byte is; none from `FZN_SETTING_RANKS` on. -/
def rankOfByte (b : UInt8) : Option SettingRank :=
  if b = 0 then some .host else if b = 1 then some .admin else if b = 2 then some .root else none

theorem rankOfByte_byte (r : SettingRank) : rankOfByte r.byte = some r := by
  cases r <;> rfl

/-- `fzn_setting_err_t`, without OK. -/
inductive SettingErr
  | malformed
  | shape
  | signature
  | scope
  deriving DecidableEq, Repr

/-- `fzn_setting_t`; `rank` is what its setter states, if it states one. -/
structure Setting where
  setter : Key
  scope : Scope
  about : Bytes32
  version : UInt64
  key : Bytes
  set : Bool
  value : Bytes
  rank : Option SettingRank
  deriving DecidableEq

/-- `FZN_SETTING_KEY_MAX` and `FZN_SETTING_VALUE_MAX`. -/
def keyMax : ℕ := 64
def valueMax : ℕ := 256

/-- `FZN_SETTING_MIN` and `FZN_SETTING_MAX`. -/
def settingMin : ℕ := 76 + 1 + 1 + 2 + 64
def settingMax : ℕ := 76 + keyMax + 1 + 2 + valueMax + 1 + 64

/-- `FZN_OBJECT_SETTING`. -/
def settingTag : UInt8 := 147

/-- `fzn_setting_key_ok`. -/
def settingKeyOk (key : Bytes) : Bool :=
  key != [] && decide (key.length ≤ keyMax) &&
    key.all fun c => (97 ≤ c && c ≤ 122) || (48 ≤ c && c ≤ 57) || c == 46 || c == 95 || c == 47 ||
      c == 45

/-- `value_ok`. -/
def valueOk (value : Bytes) : Bool :=
  decide (value.length ≤ valueMax) && value.all fun c => 0x20 ≤ c && c ≤ 0x7e

/-- `scope_served`: the scope of a byte, of those with cells here. -/
def scopeServed (b : UInt8) : Option Scope :=
  if b = 1 then some .host else if b = 2 then some .group else if b = 3 then some .estate else none

/-- `fzn_setting_open`. -/
def settingOpen (ops : SignOps) (b : Bytes) : Except SettingErr Setting :=
  let keyLen := (b.getD 75 0).toNat
  let at' := 76 + keyLen
  let key := (b.drop 76).take keyLen
  let valueLen := getBe b (at' + 1) 2
  let value := (b.drop (at' + 3)).take valueLen
  let ranked : Bool := b.length == at' + 3 + valueLen + 1 + 64
  let stated := rankOfByte (b.getD (at' + 3 + valueLen) 0)
  if b.length < settingMin ∨ settingMax < b.length ∨ b.getD 0 0 ≠ signedVersion ∨
      b.getD 1 0 ≠ settingTag then .error .shape
  else if settingKeyOk key = false ∨ b.length < at' + 3 + 64 ∨ 1 < b.getD at' 0 then .error .shape
  else if (ranked = false ∧ b.length ≠ at' + 3 + valueLen + 64) ∨
      (b.getD at' 0 = 0 ∧ valueLen ≠ 0) ∨ valueOk value = false ∨
      (ranked = true ∧ stated = none) then .error .shape
  else
    match scopeServed (b.getD 34 0) with
    | none => .error .scope
    | some scope =>
      if ops.verify (BitVec.ofNat 256 (getBe b 2 32)) (b.take (b.length - 64))
          (BitVec.ofNat 512 (getBe b (b.length - 64) 64)) = false then .error .signature
      else
        .ok {
          setter := BitVec.ofNat 256 (getBe b 2 32)
          scope := scope
          about := BitVec.ofNat 256 (getBe b 35 32)
          version := UInt64.ofNat (getBe b 67 8)
          key := key
          set := b.getD at' 0 == 1
          value := value
          rank := if ranked then stated else none }

/-- `fzn_setting_supersedes`. -/
def supersedes (a b : Setting) : Bool :=
  if a.version ≠ b.version then decide (b.version < a.version)
  else if a.setter ≠ b.setter then decide (b.setter < a.setter)
  else if a.set ≠ b.set then a.set
  else if a.value.length ≠ b.value.length then decide (b.value.length < a.value.length)
  else decide (b.value.map UInt8.toNat < a.value.map UInt8.toNat)

/-! ## The cell -/

/-- What a cell is of: a scope, what is meant in it, and a key. -/
structure CellName where
  scope : Scope
  about : Bytes32
  key : Bytes
  deriving DecidableEq

/-- The cell a setting is about. -/
def Setting.cellName (s : Setting) : CellName := ⟨s.scope, s.about, s.key⟩

/-- What `fzn_scope_subject` hashes. -/
def subjectInput (scope : Scope) (about : Bytes32) : Bytes :=
  ascii "fuzznet-scope-v1" ++ scope.byte :: bytes32 about

/-- What `fzn_setting_cell_of` hashes. -/
def cellInput (scope : Scope) (subject : Bytes32) (key : Bytes) : Bytes :=
  ascii "fuzznet-cell-v1." ++ scope.byte :: (bytes32 subject ++ UInt8.ofNat key.length :: key)

/-- `fzn_scope_subject`. -/
def scopeSubject (hash : HashOps) (scope : Scope) (about : Bytes32) : Option Bytes32 :=
  if scope = .hostPrivate then none else hash.hash (subjectInput scope about)

/-- `fzn_setting_cell_of`. -/
def cellOf (hash : HashOps) (n : CellName) : Option Bytes32 :=
  if settingKeyOk n.key = false then none
  else
    match scopeSubject hash n.scope n.about with
    | none => none
    | some subject => hash.hash (cellInput n.scope subject n.key)

/-- `fzn_setting_cell`. -/
def settingCell (hash : HashOps) (s : Setting) : Option Bytes32 := cellOf hash s.cellName

/-! ## The order -/

/-- What a setting is compared by. -/
def Setting.place (s : Setting) : ℕ ×ₗ ℕ ×ₗ ℕ ×ₗ ℕ ×ₗ List ℕ :=
  toLex (s.version.toNat, toLex (s.setter.toNat, toLex (s.set.toNat,
    toLex (s.value.length, s.value.map UInt8.toNat))))

/-- The first part of a pair decides, and the rest where it is the same. -/
theorem toLex_lt_toLex_iff {α β : Type*} [LinearOrder α] [LinearOrder β] {a a' : α} {b b' : β} :
    toLex (a, b) < toLex (a', b') ↔ if a ≠ a' then a < a' else b < b' := by
  rw [Prod.Lex.toLex_lt_toLex]
  split
  next hne => exact ⟨fun h => h.resolve_right fun h => hne h.1, .inl⟩
  next heq => exact ⟨fun h => (h.resolve_left fun h => h.ne (not_not.1 heq)).2,
    fun h => .inr ⟨not_not.1 heq, h⟩⟩

/-- **One setting supersedes another** of a lower place. -/
theorem supersedes_iff {a b : Setting} : supersedes a b = true ↔ b.place < a.place := by
  have hversion : b.version.toNat ≠ a.version.toNat ↔ a.version ≠ b.version := by
    rw [Ne, Ne, UInt64.toNat_inj, eq_comm]
  have hsetter : b.setter.toNat ≠ a.setter.toNat ↔ a.setter ≠ b.setter := by
    rw [Ne, Ne, BitVec.toNat_inj, eq_comm]
  have hset : b.set.toNat ≠ a.set.toNat ↔ a.set ≠ b.set := by
    cases a.set <;> cases b.set <;> decide
  have hlength : b.value.length ≠ a.value.length ↔ a.value.length ≠ b.value.length :=
    ne_comm
  unfold supersedes Setting.place
  rw [toLex_lt_toLex_iff, toLex_lt_toLex_iff, toLex_lt_toLex_iff, toLex_lt_toLex_iff]
  simp only [hversion, hsetter, hset, hlength]
  split
  next => rw [decide_eq_true_eq, UInt64.lt_iff_toNat_lt]
  next =>
    split
    next => rw [decide_eq_true_eq, BitVec.lt_def]
    next =>
      split
      next hne =>
        revert hne
        cases a.set <;> cases b.set <;> decide
      next =>
        split
        next => rw [decide_eq_true_eq]
        next => rw [decide_eq_true_eq]

/-- **Settings of one place say one thing.** -/
theorem place_inj {a b : Setting} (h : a.place = b.place) :
    a.version = b.version ∧ a.setter = b.setter ∧ a.set = b.set ∧ a.value = b.value := by
  have hparts := Prod.mk.inj (toLex_inj.1 h)
  have hparts' := Prod.mk.inj (toLex_inj.1 hparts.2)
  have hparts'' := Prod.mk.inj (toLex_inj.1 hparts'.2)
  have hvalue := (Prod.mk.inj (toLex_inj.1 hparts''.2)).2
  refine ⟨UInt64.toNat_inj.1 hparts.1, BitVec.toNat_inj.1 hparts'.1, ?_,
    List.map_injective_iff.2 (fun c d hcd => UInt8.toNat_inj.1 hcd) hvalue⟩
  have hset := hparts''.1
  revert hset
  cases a.set <;> cases b.set <;> decide

/-! ## Cells and their hashes -/

/-- What is hashed for a cell. -/
def CellName.inputs (hash : HashOps) (n : CellName) : Set Bytes :=
  {x | x = subjectInput n.scope n.about ∨
    ∃ subject, scopeSubject hash n.scope n.about = some subject ∧
      x = cellInput n.scope subject n.key}

theorem scope_byte_inj {a b : Scope} (h : a.byte = b.byte) : a = b := by
  cases a <;> cases b <;> first | rfl | exact absurd h (by decide)

theorem cellOf_some {hash : HashOps} {n : CellName} {c : Bytes32} (h : cellOf hash n = some c) :
    settingKeyOk n.key = true ∧ n.scope ≠ .hostPrivate ∧
      ∃ subject, hash.hash (subjectInput n.scope n.about) = some subject ∧
        scopeSubject hash n.scope n.about = some subject ∧
        hash.hash (cellInput n.scope subject n.key) = some c := by
  unfold cellOf at h
  obtain ⟨hkey, h⟩ := past_check h nofun
  split at h
  next => cases h
  next subject hsubject =>
    refine ⟨Bool.not_eq_false _ ▸ hkey, ?_, subject, ?_, hsubject, h⟩
    · intro hprivate
      rw [scopeSubject, if_pos hprivate] at hsubject
      cases hsubject
    · unfold scopeSubject at hsubject
      obtain ⟨-, hsubject⟩ := past_check hsubject nofun
      exact hsubject

/-- **A cell is of one scope, one thing and one key**, where nothing hashed collides. -/
theorem cellOf_inj {hash : HashOps} {T : Set Bytes} (hinj : hash.InjOn T) {n n' : CellName}
    (hn : n.inputs hash ⊆ T) (hn' : n'.inputs hash ⊆ T) {c : Bytes32}
    (h : cellOf hash n = some c) (h' : cellOf hash n' = some c) : n = n' := by
  obtain ⟨-, -, subject, hsubject, hsome, hcell⟩ := cellOf_some h
  obtain ⟨-, -, subject', hsubject', hsome', hcell'⟩ := cellOf_some h'
  have hinput := hinj _ (hn (.inr ⟨subject, hsome, rfl⟩)) _ (hn' (.inr ⟨subject', hsome', rfl⟩)) _
    hcell hcell'
  obtain ⟨hbyte, hrest⟩ := List.cons.inj (List.append_cancel_left hinput)
  obtain ⟨rfl, hbehind⟩ := bytes32_append_inj.1 hrest
  have hkey := (List.cons.inj hbehind).2
  have hscope := scope_byte_inj hbyte
  have habout := hinj _ (hn (.inl rfl)) _ (hn' (.inl rfl)) _ hsubject hsubject'
  have habout' := (List.cons.inj (List.append_cancel_left habout)).2
  obtain ⟨scope, about, key⟩ := n
  obtain ⟨scope', about', key'⟩ := n'
  dsimp only at hscope hkey habout'
  rw [hscope, hkey, Session.bytes32_injective habout']

/-! ## What opens -/

/-- A setting that opens has its bounds. -/
theorem settingOpen_length {ops : SignOps} {b : Bytes} {s : Setting}
    (h : settingOpen ops b = .ok s) : settingMin ≤ b.length ∧ b.length ≤ settingMax := by
  unfold settingOpen at h
  dsimp only at h
  obtain ⟨hshape, h⟩ := past_check h nofun
  rw [not_or, not_or, not_lt, not_lt] at hshape
  exact ⟨hshape.1, hshape.2.1⟩

theorem scopeServed_ne (b : UInt8) : scopeServed b ≠ some .hostPrivate := by
  unfold scopeServed
  split
  · exact nofun
  · split
    · exact nofun
    · split <;> exact nofun

/-- A setting that opens has a key that is one, in a scope that has cells. -/
theorem settingOpen_named {ops : SignOps} {b : Bytes} {s : Setting}
    (h : settingOpen ops b = .ok s) : settingKeyOk s.key = true ∧ s.scope ≠ .hostPrivate := by
  unfold settingOpen at h
  dsimp only at h
  obtain ⟨-, h⟩ := past_check h nofun
  obtain ⟨hkey, h⟩ := past_check h nofun
  obtain ⟨-, h⟩ := past_check h nofun
  cases hscope : scopeServed (b.getD 34 0) with
  | none => rw [hscope] at h; cases h
  | some scope =>
    rw [hscope] at h
    dsimp only at h
    obtain ⟨-, h⟩ := past_check h nofun
    obtain rfl := Except.ok.inj h
    rw [not_or, Bool.not_eq_false] at hkey
    refine ⟨hkey.1, fun hprivate => scopeServed_ne (b.getD 34 0) ?_⟩
    rw [hscope, ← hprivate]

/-! ## What is in force -/

/-- A setting, and the rank it is filed at. -/
abbrev Filed := Setting × SettingRank

/-- Where a setting is filed. -/
def filedAt (p : Filed) : CellName × SettingRank := (p.1.cellName, p.2)

/-- The greatest of what is filed in one place. -/
abbrev GreatestFiled (A : Set Filed) (p : Filed) : Prop := Latest filedAt (fun q => q.1.place) A p

/-- One rank is below another. -/
def SettingRank.Below (r r' : SettingRank) : Prop := r.byte < r'.byte

instance (r r' : SettingRank) : Decidable (r.Below r') := inferInstanceAs (Decidable (_ < _))

/-- A setting is in force for a cell, at a rank. -/
structure InForce (A : Set Filed) (n : CellName) (r : SettingRank) (s : Setting) : Prop where
  greatest : GreatestFiled A (s, r)
  cell : s.cellName = n
  set : s.set = true
  above : ∀ r' s', r.Below r' → GreatestFiled A (s', r') → s'.cellName = n → s'.set = false

variable {A : Set Filed} {n : CellName} {r r' : SettingRank} {s s' c : Setting}

theorem SettingRank.below_or_eq (r r' : SettingRank) : r.Below r' ∨ r = r' ∨ r'.Below r := by
  cases r <;> cases r' <;> decide

theorem SettingRank.Below.ne (h : r.Below r') : r' ≠ r := by
  rintro rfl
  exact UInt8.lt_irrefl _ h

theorem SettingRank.Below.trans {r'' : SettingRank} (h : r.Below r') (h' : r'.Below r'') :
    r.Below r'' :=
  UInt8.lt_trans h h'

/-- Two that are the greatest of one place say one thing. -/
theorem greatest_place (h : GreatestFiled A (s, r)) (h' : GreatestFiled A (s', r))
    (hcell : s.cellName = s'.cellName) : s.place = s'.place := by
  have hat : filedAt (s, r) = filedAt (s', r) := congrArg (fun m => (m, r)) hcell
  exact le_antisymm (h'.le (s, r) h.mem hat) (h.le (s', r) h'.mem hat.symm)

theorem version_le_of_place (h : c.place ≤ s.place) : c.version ≤ s.version := by
  rw [UInt64.le_iff_toNat_le]
  rcases Prod.Lex.toLex_le_toLex.1 h with hlt | ⟨heq, -⟩
  · exact hlt.le
  · exact heq.le

/-- **Nothing older than a clear is in force at its rank.** -/
theorem InForce.version_le (h : InForce A n r s) (hc : (c, r) ∈ A) (hcell : c.cellName = n) :
    c.version ≤ s.version :=
  version_le_of_place (h.greatest.le (c, r) hc (congrArg (fun m => (m, r))
    (hcell.trans h.cell.symm)))

/-- Without what is filed in another place, the greatest are the same. -/
theorem greatest_without {p : Filed} (h : filedAt p ≠ (n, r)) :
    GreatestFiled {q ∈ A | filedAt q ≠ (n, r)} p ↔ GreatestFiled A p := by
  constructor
  · rintro ⟨hmem, hle⟩
    exact ⟨hmem.1, fun q hq hqp => hle q ⟨hq, hqp ▸ h⟩ hqp⟩
  · rintro ⟨hmem, hle⟩
    exact ⟨⟨hmem, h⟩, fun q hq hqp => hle q hq.1 hqp⟩

/-- **A clear withdraws its rank alone**: what is in force is what is without everything
filed there. -/
theorem inForce_withdrawn (hc : GreatestFiled A (c, r)) (hcell : c.cellName = n)
    (hclear : c.set = false) :
    InForce A n r' s ↔ InForce {q ∈ A | filedAt q ≠ (n, r)} n r' s := by
  have hat : ∀ {r' s}, s.cellName = n → (filedAt (s, r') ≠ (n, r) ↔ r' ≠ r) := by
    rintro r' s rfl
    rw [Ne, filedAt, Prod.mk.injEq]
    exact not_congr (and_iff_right rfl)
  constructor
  · intro h
    have hne : r' ≠ r := by
      rintro rfl
      have hplace := greatest_place h.greatest hc (h.cell.trans hcell.symm)
      exact Bool.noConfusion (hclear.symm.trans ((place_inj hplace).2.2.1.symm.trans h.set))
    refine ⟨(greatest_without ((hat h.cell).2 hne)).2 h.greatest, h.cell, h.set, ?_⟩
    intro r'' s'' hlt hgreatest hcell'
    exact h.above r'' s'' hlt ((greatest_without hgreatest.mem.2).1 hgreatest) hcell'
  · intro h
    refine ⟨(greatest_without h.greatest.mem.2).1 h.greatest, h.cell, h.set, ?_⟩
    intro r'' s'' hlt hgreatest hcell'
    by_cases hr : r'' = r
    · subst hr
      have hplace := greatest_place hgreatest hc (hcell'.trans hcell.symm)
      exact (place_inj hplace).2.2.1.trans hclear
    · exact h.above r'' s'' hlt ((greatest_without ((hat hcell').2 hr)).2 hgreatest) hcell'

end State
end Fuzznet
