/-
# Nothing set aside is forgotten

An object set aside is a row of its own, and the count of them is another row, written
behind it.  `unpark` walks nothing where the count reads zero, so a row whose count was not
written is hidden for good while the count is zero: the same object parked again is found
parked and the count stays (`parked_hidden`).

Where each call that writes a new row leaves a count that is not zero (`ParkCall.Counted`),
nothing set aside is forgotten in any run (`nothing_forgotten`): a count of zero is of no
row, the next `unpark` whose walk is answered hands over every object, and an object parked
stays until a judge has a verdict on it.
-/

import Fuzznet.Lib.Runs
import Fuzznet.Node.Settings

namespace Fuzznet
namespace Node

open Wire Lib State

/-- The rows of the settings slot. -/
abbrev SettingRows := AList fun _ : Bytes32 => Bytes

/-- A call, with how the operations it makes will end. -/
inductive ParkCall
  | park (bytes : Bytes) (outcomes : List Outcome)
  | unpark (judge : ParkedJudge) (outcomes : List Outcome)

/-- The rows behind a call. -/
def parkStep (hash : HashOps) (rows : SettingRows) : ParkCall → SettingRows
  | .park bytes outcomes => (settingsPark hash ⟨rows, outcomes⟩ bytes).2.rows
  | .unpark judge outcomes => (settingsUnpark hash judge ⟨rows, outcomes⟩).2.disk.rows

/-- What is hashed where the objects of `S` are parked. -/
def parkInputs (S : Set Bytes) : Set Bytes :=
  {x | x = parkedCountInput ∨ ∃ bytes ∈ S, x = parkedInput bytes}

/-- The objects a call parks are among `S`. -/
def ParkCall.Among (S : Set Bytes) : ParkCall → Prop
  | .park bytes _ => bytes ∈ S
  | .unpark _ _ => True

/-- An object is parked: its row holds it. -/
def Parked (hash : HashOps) (rows : SettingRows) (bytes : Bytes) : Prop :=
  ∃ row, parkedRow hash bytes = some row ∧ rows.lookup row = some (rowParked :: bytes)

/-- No verdict on an object among the calls of a judge. -/
def Unjudged (bytes : Bytes) (calls : List (Bytes × ℤ)) : Prop :=
  ∀ call ∈ calls, call.1 = bytes → call.2 = 0

/-- Nothing set aside in a run is forgotten at its end. -/
structure NothingForgotten (hash : HashOps) (rows : SettingRows) (calls : List ParkCall) :
    Prop where
  handed : ∀ judge outcomes, outcomes.headD .done = .done → ∀ row held,
    (calls.foldl (parkStep hash) rows).lookup row = some held → held.head? = some rowParked →
      held.tail ∈ (settingsUnpark hash judge
        ⟨calls.foldl (parkStep hash) rows, outcomes⟩).2.calls.map Prod.fst
  stays : ∀ pre bytes outcomes post, calls = pre ++ .park bytes outcomes :: post →
    (settingsPark hash ⟨pre.foldl (parkStep hash) rows, outcomes⟩ bytes).1 = .ok →
    (∀ mid judge outcomes' rest, post = mid ++ .unpark judge outcomes' :: rest →
      Unjudged bytes (settingsUnpark hash judge
        ⟨(pre ++ .park bytes outcomes :: mid).foldl (parkStep hash) rows, outcomes'⟩).2.calls) →
    Parked hash (calls.foldl (parkStep hash) rows) bytes
  once : ∀ row row' held, (calls.foldl (parkStep hash) rows).lookup row = some held →
    (calls.foldl (parkStep hash) rows).lookup row' = some held → held.head? = some rowParked →
      row = row'
  counted : parkedCount hash ⟨calls.foldl (parkStep hash) rows, []⟩ = 0 →
    ∀ row held, (calls.foldl (parkStep hash) rows).lookup row = some held →
      held.head? ≠ some rowParked

/-! ## What one call does -/

/-- How a save ends. -/
theorem save_cases (d : SettingsDisk) (row : Bytes32) (held : Bytes) :
    (d.next = .refused ∧ d.save row held = (false, ⟨d.rows, d.outcomes.tail⟩)) ∨
    (d.next = .unanswered ∧ d.save row held = (false, ⟨d.rows.insert row held, d.outcomes.tail⟩)) ∨
    (d.next = .done ∧ d.save row held = (true, ⟨d.rows.insert row held, d.outcomes.tail⟩)) := by
  unfold Disk.save Disk.change
  cases hnext : d.next with
  | done => exact .inr (.inr ⟨rfl, rfl⟩)
  | refused => exact .inl ⟨rfl, rfl⟩
  | unanswered => exact .inr (.inl ⟨rfl, rfl⟩)

/-- The row of the count, written. -/
def countBytes (n : UInt64) : Bytes := rowParkedCount :: putBe 8 n.toNat

/-- A count saved is written, or the slot is left. -/
theorem parkedCountSave_cases (hash : HashOps) (d : SettingsDisk) (n : UInt64) :
    ((parkedCountRow hash = none ∨ d.next = .refused) ∧ (parkedCountSave hash d n).1 = false ∧
      (parkedCountSave hash d n).2.rows = d.rows) ∨
    ∃ row, parkedCountRow hash = some row ∧ d.next ≠ .refused ∧
      (parkedCountSave hash d n).2.rows = d.rows.insert row (countBytes n) := by
  unfold parkedCountSave
  cases hrow : parkedCountRow hash with
  | none => exact .inl ⟨.inl rfl, rfl, rfl⟩
  | some row =>
    dsimp only
    rcases save_cases d row (rowParkedCount :: putBe 8 n.toNat) with
      ⟨hnext, hsave⟩ | ⟨hnext, hsave⟩ | ⟨hnext, hsave⟩
    · rw [hsave]
      exact .inl ⟨.inr hnext, rfl, rfl⟩
    · rw [hsave]
      exact .inr ⟨row, rfl, by rw [hnext]; exact Outcome.noConfusion, rfl⟩
    · rw [hsave]
      exact .inr ⟨row, rfl, by rw [hnext]; exact Outcome.noConfusion, rfl⟩

/-- What a row written by a parking leaves behind: the row alone, or the row and the count. -/
inductive ParkWrote (hash : HashOps) (d : SettingsDisk) (row : Bytes32) (bytes : Bytes) :
    SettingsErr → SettingRows → Prop
  | row (h : d.next = .unanswered ∨ parkedCountRow hash = none ∨
      d.outcomes.tail.headD .done = .refused) :
      ParkWrote hash d row bytes .backend (d.rows.insert row (rowParked :: bytes))
  | both {count err n} (hnext : d.next = .done) (hcount : parkedCountRow hash = some count)
      (hsecond : d.outcomes.tail.headD .done ≠ .refused)
      (hn : n = parkedCount hash ⟨d.rows.insert row (rowParked :: bytes), d.outcomes.tail⟩ + 1) :
      ParkWrote hash d row bytes err
        ((d.rows.insert row (rowParked :: bytes)).insert count (countBytes n))

variable {hash : HashOps} {d : SettingsDisk} {row : Bytes32}

/-- An object that is not there is written, where its save is not refused. -/
theorem settingsPark_wrote {bytes : Bytes} (hne : bytes ≠ []) (hle : bytes.length ≤ settingMax)
    (hrow : parkedRow hash bytes = some row) (hnew : parkedAlready d row bytes = false)
    (hnext : d.next ≠ .refused) :
    ParkWrote hash d row bytes (settingsPark hash d bytes).1
      (settingsPark hash d bytes).2.rows := by
  unfold settingsPark
  rw [if_neg (by rw [not_or]; exact ⟨hne, not_lt.2 hle⟩), hrow]
  dsimp only
  rw [if_neg (by rw [hnew]; exact Bool.noConfusion)]
  rcases save_cases d row (rowParked :: bytes) with ⟨hrefused, -⟩ | ⟨hnext, hsave⟩ | ⟨hnext, hsave⟩
  · exact absurd hrefused hnext
  · rw [hsave]
    exact .row (.inl hnext)
  · rw [hsave, if_neg Bool.noConfusion]
    dsimp only
    rcases parkedCountSave_cases hash ⟨d.rows.insert row (rowParked :: bytes),
      d.outcomes.tail⟩ (parkedCount hash ⟨d.rows.insert row (rowParked :: bytes),
        d.outcomes.tail⟩ + 1) with ⟨hwhy, hno, hrows⟩ | ⟨count, hcount, hsecond, hrows⟩
    · rw [hno, hrows, if_neg Bool.noConfusion]
      exact .row (.inr hwhy)
    · rw [hrows]
      exact .both hnext hcount hsecond rfl

/-- A parking leaves the slot, or writes a row that was not there. -/
theorem settingsPark_cases (hash : HashOps) (d : SettingsDisk) (bytes : Bytes) :
    ((settingsPark hash d bytes).2.rows = d.rows ∧
      ((settingsPark hash d bytes).1 = .ok →
        ∃ row, parkedRow hash bytes = some row ∧ parkedAlready d row bytes = true)) ∨
    ∃ row, bytes ≠ [] ∧ parkedRow hash bytes = some row ∧ parkedAlready d row bytes = false ∧
      d.next ≠ .refused ∧
      ParkWrote hash d row bytes (settingsPark hash d bytes).1
        (settingsPark hash d bytes).2.rows := by
  by_cases hshape : bytes = [] ∨ settingMax < bytes.length
  · unfold settingsPark
    rw [if_pos hshape]
    exact .inl ⟨rfl, nofun⟩
  cases hrow : parkedRow hash bytes with
  | none =>
    unfold settingsPark
    rw [if_neg hshape, hrow]
    exact .inl ⟨rfl, nofun⟩
  | some row =>
    cases halready : parkedAlready d row bytes with
    | true =>
      unfold settingsPark
      rw [if_neg hshape, hrow]
      dsimp only
      rw [if_pos halready]
      exact .inl ⟨rfl, fun _ => ⟨row, rfl, halready⟩⟩
    | false =>
      rw [not_or] at hshape
      by_cases hnext : d.next = .refused
      · obtain ⟨hno, hrows⟩ := Disk.save_of_refused hnext row (rowParked :: bytes)
        unfold settingsPark
        rw [if_neg (not_or.2 hshape), hrow]
        dsimp only
        rw [if_neg (by rw [halready]; exact Bool.noConfusion), if_pos hno]
        exact .inl ⟨hrows, nofun⟩
      · exact .inr ⟨row, hshape.1, rfl, halready, hnext,
          settingsPark_wrote hshape.1 (not_lt.1 hshape.2) hrow halready hnext⟩

/-- The object a row sets aside is behind its first byte. -/
theorem loadParked_iff {bytes : Bytes} :
    loadParked d row = some bytes ↔
      d.load row = some (rowParked :: bytes) ∧ bytes ≠ [] ∧ bytes.length ≤ settingMax := by
  unfold loadParked settingsLoad
  cases hload : d.load row with
  | none => simp
  | some held =>
    cases held with
    | nil => simp [Option.filter]
    | cons b rest =>
      cases rest with
      | nil =>
        simp only [Option.filter_some, Option.some.injEq, List.cons.injEq]
        constructor
        · intro h
          split at h
          · simp at h
          · cases h
        · rintro ⟨⟨-, rfl⟩, hne, -⟩
          exact absurd rfl hne
      | cons c rest =>
        simp only [Option.filter_some, Option.some.injEq, List.cons.injEq, List.length_cons,
          decide_eq_true_eq]
        constructor
        · intro h
          split at h
          next hle =>
            rw [Option.bind_some] at h
            obtain ⟨hhead, h⟩ := past_check h nofun
            rw [not_or] at hhead
            have hb : b = rowParked := not_not.1 hhead.2
            obtain rfl := Option.some.inj h
            exact ⟨⟨hb, rfl⟩, List.cons_ne_nil _ _,
              by rw [List.tail_cons, List.length_cons]; omega⟩
          next => cases h
        · rintro ⟨⟨rfl, rfl⟩, -, hle⟩
          rw [if_pos (by rw [List.length_cons] at hle; omega), Option.bind_some,
            if_neg (by simp), List.tail_cons]

/-! ## The count -/

/-- The count is read of one row. -/
theorem parkedCount_congr {d d' : SettingsDisk}
    (h : ∀ row, parkedCountRow hash = some row → d.load row = d'.load row) :
    parkedCount hash d = parkedCount hash d' := by
  unfold parkedCount
  cases hrow : parkedCountRow hash with
  | none => rfl
  | some row => simp only [Option.bind_some, settingsLoad, h row hrow]

/-- A count that is not zero is a row of its own. -/
theorem parkedCount_row (hne : parkedCount hash d ≠ 0) :
    ∃ row held, parkedCountRow hash = some row ∧ d.load row = some held ∧
      held.head? = some rowParkedCount := by
  unfold parkedCount at hne
  split at hne
  next => exact absurd rfl hne
  next held heq =>
    split at hne
    next => exact absurd rfl hne
    next hshape =>
      rw [not_or, not_not, not_not] at hshape
      obtain ⟨row, hrow, hload⟩ := Option.bind_eq_some_iff.1 heq
      refine ⟨row, held, hrow, (Option.filter_eq_some_iff.1 hload).1, ?_⟩
      cases held with
      | nil => exact absurd hshape.1 (by simp)
      | cons b rest => exact congrArg some hshape.2

/-- What leaves the row that counts leaves the count, where it is not zero. -/
theorem parkedCount_keeps {d d' : SettingsDisk} (hne : parkedCount hash d ≠ 0)
    (h : ∀ row held, parkedCountRow hash = some row → held.head? = some rowParkedCount →
      d.load row = some held → d'.load row = some held) :
    parkedCount hash d' = parkedCount hash d := by
  obtain ⟨row, held, hrow, hload, hhead⟩ := parkedCount_row hne
  refine parkedCount_congr fun row' hrow' => ?_
  obtain rfl := Option.some.inj (hrow.symm.trans hrow')
  rw [h row held hrow hhead hload, hload]

/-- The count written is the count read. -/
theorem parkedCount_insert (hrow : parkedCountRow hash = some row) (rows : SettingRows) (n : UInt64)
    (outcomes : List Outcome) :
    parkedCount hash ⟨rows.insert row (countBytes n), outcomes⟩ = n := by
  have hlen : (countBytes n).length = 9 := by
    rw [countBytes, List.length_cons, length_putBe]
  have hread : getBe (countBytes n) 1 8 = n.toNat := by
    have h := getBe_putBe_of_lt (n := 8) [] n.toNat_lt
    rw [List.append_nil] at h
    rw [countBytes, getBe_cons Nat.one_pos]
    exact h
  unfold parkedCount
  rw [hrow, Option.bind_some, settingsLoad, Disk.load, AList.lookup_insert, Option.filter_some,
    if_pos (by rw [hlen]; rfl)]
  dsimp only
  rw [if_neg (by rw [hlen, countBytes]; simp), hread, UInt64.ofNat_toNat]

/-- A row elsewhere leaves the count. -/
theorem parkedCount_insert_ne (h : parkedCountRow hash ≠ some row) (rows : SettingRows)
    (held : Bytes) (outcomes : List Outcome) :
    parkedCount hash ⟨rows.insert row held, outcomes⟩ = parkedCount hash ⟨rows, outcomes⟩ := by
  refine parkedCount_congr fun count hcount => AList.lookup_insert_ne ?_
  rintro rfl
  exact h hcount

/-! ## Under its own hash -/

section Inputs

variable {hash : HashOps} {S : Set Bytes} {rows : SettingRows} {bytes bytes' : Bytes}
  {row : Bytes32}

theorem parkedRow_some (h : parkedRow hash bytes = some row) :
    bytes.length ≤ settingMax ∧ hash.hash (parkedInput bytes) = some row := by
  unfold parkedRow at h
  obtain ⟨hle, h⟩ := past_check h nofun
  exact ⟨not_lt.1 hle, h⟩

/-- Two objects are not parked under one row. -/
theorem parkedRow_inj (hinj : hash.InjOn (parkInputs S)) (hS : bytes ∈ S) (hS' : bytes' ∈ S)
    (h : parkedRow hash bytes = some row) (h' : parkedRow hash bytes' = some row) :
    bytes = bytes' :=
  List.append_cancel_left (hinj _ (.inr ⟨bytes, hS, rfl⟩) _ (.inr ⟨bytes', hS', rfl⟩) row
    (parkedRow_some h).2 (parkedRow_some h').2)

/-- The object whose row is the count's. -/
theorem parkedInput_count : parkedInput (ascii ".count") = parkedCountInput := by
  decide

/-- The count is not under the row of an object. -/
theorem parkedRow_ne_count (hinj : hash.InjOn (parkInputs S)) (hS : bytes ∈ S)
    (hne : bytes ≠ ascii ".count") (h : parkedRow hash bytes = some row) :
    parkedCountRow hash ≠ some row := by
  intro hcount
  have hinput := hinj _ (.inr ⟨bytes, hS, rfl⟩) _ (.inl rfl) row (parkedRow_some h).2 hcount
  exact hne (List.append_cancel_left (hinput.trans parkedInput_count.symm))

/-- What the runs keep: every object is under its own row, and none is there while the
count is zero. -/
structure ParkInv (hash : HashOps) (S : Set Bytes) (rows : SettingRows) : Prop where
  placed : ∀ row held, rows.lookup row = some held → held.head? = some rowParked →
    ∃ bytes ∈ S, bytes ≠ ascii ".count" ∧ bytes ≠ [] ∧ held = rowParked :: bytes ∧
      parkedRow hash bytes = some row
  counted : ∀ row held, rows.lookup row = some held → held.head? = some rowParked →
    parkedCount hash ⟨rows, []⟩ ≠ 0

/-- An object found parked already is parked. -/
theorem ParkInv.parked_of_already (hinv : ParkInv hash S rows) (hinj : hash.InjOn (parkInputs S))
    (hS : bytes ∈ S) {outcomes : List Outcome} (hrow : parkedRow hash bytes = some row)
    (h : parkedAlready ⟨rows, outcomes⟩ row bytes = true) : Parked hash rows bytes := by
  obtain ⟨held, hload, hshape⟩ := (Option.any_eq_true _ _).1 h
  rw [Bool.and_eq_true_iff, beq_iff_eq, beq_iff_eq] at hshape
  have hlookup := (Option.filter_eq_some_iff.1 hload).1
  have hhead : held.head? = some rowParked := by
    cases held with
    | nil => exact absurd hshape.1 (by rw [List.length_nil]; omega)
    | cons b rest => exact congrArg some hshape.2
  obtain ⟨bytes', hS', -, -, rfl, hrow'⟩ := hinv.placed row held hlookup hhead
  obtain rfl := parkedRow_inj hinj hS hS' hrow hrow'
  exact ⟨row, hrow, hlookup⟩

/-! ## A parking -/

/-- Whether a parking writes a row that was not there. -/
def WritesRow (hash : HashOps) (rows : SettingRows) (bytes : Bytes) (outcomes : List Outcome) :
    Prop :=
  bytes ≠ [] ∧ outcomes.headD .done ≠ .refused ∧
    ∃ row, parkedRow hash bytes = some row ∧ parkedAlready ⟨rows, outcomes⟩ row bytes = false

/-- Whether the count behind a row written is not zero: it was zero and both writes are made,
or it was not and is not made zero. -/
def CountKept (hash : HashOps) (rows : SettingRows) (outcomes : List Outcome) : Prop :=
  if parkedCount hash ⟨rows, []⟩ = 0 then
    parkedCountRow hash ≠ none ∧ outcomes.headD .done = .done ∧
      outcomes.tail.headD .done ≠ .refused
  else
    outcomes.headD .done = .done → outcomes.tail.headD .done ≠ .refused →
      parkedCount hash ⟨rows, []⟩ + 1 ≠ 0

/-- What a call has to meet. -/
def ParkCall.Counted (hash : HashOps) (rows : SettingRows) : ParkCall → Prop
  | .park bytes outcomes => WritesRow hash rows bytes outcomes →
      bytes ≠ ascii ".count" ∧ CountKept hash rows outcomes
  | .unpark _ _ => rows.keys.length < 2 ^ 64

/-- **A parking that counts what it writes keeps the invariant.** -/
theorem ParkInv.park (hinv : ParkInv hash S rows) (hinj : hash.InjOn (parkInputs S))
    (hS : bytes ∈ S) {outcomes : List Outcome}
    (hcounted : (ParkCall.park bytes outcomes).Counted hash rows) :
    ParkInv hash S (parkStep hash rows (.park bytes outcomes)) := by
  show ParkInv hash S (settingsPark hash ⟨rows, outcomes⟩ bytes).2.rows
  rcases settingsPark_cases hash ⟨rows, outcomes⟩ bytes with
    ⟨hsame, -⟩ | ⟨row, hne, hrow, hnew, hnext, hwrote⟩
  · rw [hsame]
    exact hinv
  obtain ⟨hname, hkept⟩ := hcounted ⟨hne, hnext, row, hrow, hnew⟩
  have hcount := parkedRow_ne_count hinj hS hname hrow
  have hrows : (⟨rows, outcomes⟩ : SettingsDisk).rows = rows := rfl
  have hplaced : ∀ row' held, (rows.insert row (rowParked :: bytes)).lookup row' = some held →
      held.head? = some rowParked → ∃ bytes ∈ S, bytes ≠ ascii ".count" ∧ bytes ≠ [] ∧
        held = rowParked :: bytes ∧ parkedRow hash bytes = some row' := by
    intro row' held hlookup hhead
    rcases eq_or_ne row' row with rfl | hother
    · rw [AList.lookup_insert] at hlookup
      exact ⟨bytes, hS, hname, hne, (Option.some.inj hlookup).symm, hrow⟩
    · rw [AList.lookup_insert_ne hother] at hlookup
      exact hinv.placed row' held hlookup hhead
  rw [CountKept] at hkept
  generalize (settingsPark hash ⟨rows, outcomes⟩ bytes).2.rows = rows' at hwrote ⊢
  generalize (settingsPark hash ⟨rows, outcomes⟩ bytes).1 = err at hwrote
  cases hwrote with
  | row hwhy =>
    refine ⟨hplaced, fun _ _ _ _ => ?_⟩
    rw [hrows, parkedCount_insert_ne hcount]
    split at hkept
    next =>
      rcases hwhy with hwhy | hwhy | hwhy
      · exact absurd (hkept.2.1.symm.trans hwhy) Outcome.noConfusion
      · exact absurd hwhy hkept.1
      · exact absurd hwhy hkept.2.2
    next hzero => exact hzero
  | both hdone hsome hsecond hn =>
    next count n =>
    have hn' : n = parkedCount hash ⟨rows, []⟩ + 1 := by
      rw [hn, hrows, parkedCount_insert_ne hcount]
      rfl
    refine ⟨fun row' held hlookup hhead => ?_, fun _ _ _ _ => ?_⟩
    · rcases eq_or_ne row' count with rfl | hother
      · rw [AList.lookup_insert] at hlookup
        rw [← Option.some.inj hlookup] at hhead
        cases hhead
      · rw [AList.lookup_insert_ne hother] at hlookup
        exact hplaced row' held hlookup hhead
    · rw [parkedCount_insert hsome, hn']
      split at hkept
      next hzero =>
        rw [hzero]
        decide
      next => exact hkept hdone hsecond

/-- **What is parked stays where another is parked.** -/
theorem Parked.park (h : Parked hash rows bytes) (hinj : hash.InjOn (parkInputs S))
    (hS : bytes ∈ S) (hname : bytes ≠ ascii ".count") (hS' : bytes' ∈ S)
    (outcomes : List Outcome) :
    Parked hash (parkStep hash rows (.park bytes' outcomes)) bytes := by
  obtain ⟨row, hrow, hlookup⟩ := h
  refine ⟨row, hrow, ?_⟩
  show (settingsPark hash ⟨rows, outcomes⟩ bytes').2.rows.lookup row = some (rowParked :: bytes)
  have hcount := parkedRow_ne_count hinj hS hname hrow
  rcases settingsPark_cases hash ⟨rows, outcomes⟩ bytes' with
    ⟨hsame, -⟩ | ⟨row', -, hrow', -, -, hwrote⟩
  · rw [hsame]
    exact hlookup
  have hinsert : (rows.insert row' (rowParked :: bytes')).lookup row =
      some (rowParked :: bytes) := by
    rcases eq_or_ne row row' with rfl | hother
    · rw [AList.lookup_insert, parkedRow_inj hinj hS' hS hrow' hrow]
    · rw [AList.lookup_insert_ne hother, hlookup]
  generalize (settingsPark hash ⟨rows, outcomes⟩ bytes').2.rows = rows' at hwrote ⊢
  generalize (settingsPark hash ⟨rows, outcomes⟩ bytes').1 = err at hwrote
  cases hwrote with
  | row => exact hinsert
  | both _ hsome =>
    rw [AList.lookup_insert_ne (by rintro rfl; exact hcount hsome)]
    exact hinsert

end Inputs

/-! ## An unparking -/

/-- How far a walk over the rows of objects has come: the slot, how many of the rows are gone,
and what the judge said. -/
structure Walk where
  disk : SettingsDisk
  removed : ℕ
  calls : List (Bytes × ℤ)

/-- What a judge leaves as it is: the rows of objects and the row of the count. -/
structure KeepsParked (hash : HashOps) (d d' : SettingsDisk) : Prop where
  parked : ∀ row held, held.head? = some rowParked →
    (d'.load row = some held ↔ d.load row = some held)
  count : ∀ row held, parkedCountRow hash = some row → held.head? = some rowParkedCount →
    d.load row = some held → d'.load row = some held

/-- What one row of a walk comes to. -/
inductive WalkRow (hash : HashOps) (w : Walk) (row : Bytes32) : Walk → Prop
  | pass (h : loadParked w.disk row = none) : WalkRow hash w row w
  | kept {bytes disk} (h : loadParked w.disk row = some bytes)
      (hkeeps : KeepsParked hash w.disk disk) :
      WalkRow hash w row ⟨disk, w.removed, w.calls ++ [(bytes, 0)]⟩
  | judged {bytes disk verdict removed} (h : loadParked w.disk row = some bytes)
      (hkeeps : KeepsParked hash w.disk disk) (hverdict : verdict ≠ 0)
      (hremoved : removed = w.removed ∨
        removed = w.removed + 1 ∧ (disk.remove row).1 = true) :
      WalkRow hash w row ⟨(disk.remove row).2, removed, w.calls ++ [(bytes, verdict)]⟩

/-- What a walk over rows comes to. -/
inductive WalkLoop (hash : HashOps) : List Bytes32 → Walk → Walk → Prop
  | nil {w} : WalkLoop hash [] w w
  | cons {row rows w w' w''} (first : WalkRow hash w row w') (rest : WalkLoop hash rows w' w'') :
      WalkLoop hash (row :: rows) w w''

/-- The rows an unparking leaves of a slot, and what its judge said: it walks nothing, or every
row of an object. -/
inductive Unparks (hash : HashOps) (d : SettingsDisk) :
    SettingRows → List (Bytes × ℤ) → Prop
  | none (hwhy : parkedCount hash d = 0 ∨ d.next ≠ .done) : Unparks hash d d.rows []
  | walked {w} (hcount : parkedCount hash d ≠ 0)
      (hloop : WalkLoop hash (d.rows.keys.filterMap (parkedWalked d))
        ⟨⟨d.rows, d.outcomes.tail⟩, 0, []⟩ w) :
      Unparks hash d (parkedCountSave hash w.disk
        (UInt64.ofNat ((d.rows.keys.filterMap (parkedWalked d)).length - w.removed))).2.rows w.calls

section Walks

variable {hash : HashOps} {w w' : Walk} {row row' : Bytes32} {rows : List Bytes32}
  {held bytes : Bytes}

section

variable (h : WalkRow hash w row w')
include h

theorem WalkRow.calls : ∃ more, w'.calls = w.calls ++ more := by
  cases h with
  | pass => exact ⟨[], (List.append_nil _).symm⟩
  | kept => exact ⟨_, rfl⟩
  | judged => exact ⟨_, rfl⟩

/-- A row of an object elsewhere stays as it is. -/
theorem WalkRow.load_ne (hne : row' ≠ row) (hhead : held.head? = some rowParked) :
    w'.disk.load row' = some held ↔ w.disk.load row' = some held := by
  cases h with
  | pass => exact Iff.rfl
  | kept _ hkeeps => exact hkeeps.parked row' held hhead
  | judged _ hkeeps =>
    rw [Disk.load_remove_ne hne]
    exact hkeeps.parked row' held hhead

/-- No row of an object comes. -/
theorem WalkRow.load_imp (hhead : held.head? = some rowParked)
    (hload : w'.disk.load row' = some held) : w.disk.load row' = some held := by
  cases h with
  | pass => exact hload
  | kept _ hkeeps => exact (hkeeps.parked row' held hhead).1 hload
  | judged _ hkeeps => exact (hkeeps.parked row' held hhead).1 (Disk.load_remove_imp hload)

/-- The count's row stays. -/
theorem WalkRow.load_count (hcount : parkedCountRow hash = some row')
    (hhead : held.head? = some rowParkedCount) (hload : w.disk.load row' = some held) :
    w'.disk.load row' = some held := by
  have hne : ∀ bytes, loadParked w.disk row = some bytes → row' ≠ row := by
    rintro bytes hparked rfl
    rw [(loadParked_iff.1 hparked).1] at hload
    rw [← Option.some.inj hload] at hhead
    cases hhead
  cases h with
  | pass => exact hload
  | kept _ hkeeps => exact hkeeps.count row' held hcount hhead hload
  | judged hparked hkeeps =>
    rw [Disk.load_remove_ne (hne _ hparked)]
    exact hkeeps.count row' held hcount hhead hload

/-- What is parked stays where it meets no verdict. -/
theorem WalkRow.keeps (hunjudged : Unjudged bytes w'.calls)
    (hload : w.disk.load row' = some (rowParked :: bytes)) :
    w'.disk.load row' = some (rowParked :: bytes) := by
  rcases eq_or_ne row' row with rfl | hne
  · cases h with
    | pass => exact hload
    | kept _ hkeeps => exact (hkeeps.parked row' _ rfl).2 hload
    | judged hparked hkeeps hverdict =>
      rw [(loadParked_iff.1 hparked).1] at hload
      exact absurd (hunjudged _ (List.mem_append_right _ (List.mem_singleton_self _))
        (List.cons.inj (Option.some.inj hload)).2) hverdict
  · exact (h.load_ne hne rfl).2 hload

/-- A row counted as gone is gone, and one at the most is. -/
theorem WalkRow.removed :
    w'.removed ≤ w.removed + 1 ∧ (w'.removed = w.removed ∨ w'.disk.load row = none) := by
  cases h with
  | pass => exact ⟨Nat.le_succ _, .inl rfl⟩
  | kept => exact ⟨Nat.le_succ _, .inl rfl⟩
  | judged _ _ _ hremoved =>
    rcases hremoved with hremoved | ⟨hremoved, hgone⟩
    · exact ⟨hremoved.le.trans (Nat.le_succ _), .inl hremoved⟩
    · exact ⟨hremoved.le, .inr (Disk.load_of_remove hgone)⟩

/-- An object walked is handed over. -/
theorem WalkRow.handed (hparked : loadParked w.disk row = some bytes) :
    bytes ∈ w'.calls.map Prod.fst := by
  cases h with
  | pass hnone => exact absurd (hparked.symm.trans hnone) (Option.some_ne_none _)
  | kept hsome =>
    obtain rfl := Option.some.inj (hparked.symm.trans hsome)
    rw [List.map_append]
    exact List.mem_append_right _ (List.mem_singleton_self _)
  | judged hsome =>
    obtain rfl := Option.some.inj (hparked.symm.trans hsome)
    rw [List.map_append]
    exact List.mem_append_right _ (List.mem_singleton_self _)

end

/-! ### The loop -/

section

variable (h : WalkLoop hash rows w w')
include h

theorem WalkLoop.calls : ∃ more, w'.calls = w.calls ++ more := by
  induction h with
  | nil => exact ⟨[], (List.append_nil _).symm⟩
  | cons first _ ih =>
    obtain ⟨more, hmore⟩ := ih
    obtain ⟨before, hbefore⟩ := first.calls
    exact ⟨before ++ more, by rw [hmore, hbefore, List.append_assoc]⟩

theorem WalkLoop.load_imp (hhead : held.head? = some rowParked)
    (hload : w'.disk.load row' = some held) : w.disk.load row' = some held := by
  induction h with
  | nil => exact hload
  | cons first _ ih => exact first.load_imp hhead (ih hload)

theorem WalkLoop.load_count (hcount : parkedCountRow hash = some row')
    (hhead : held.head? = some rowParkedCount) (hload : w.disk.load row' = some held) :
    w'.disk.load row' = some held := by
  induction h with
  | nil => exact hload
  | cons first _ ih => exact ih (first.load_count hcount hhead hload)

theorem WalkLoop.keeps (hunjudged : Unjudged bytes w'.calls)
    (hload : w.disk.load row' = some (rowParked :: bytes)) :
    w'.disk.load row' = some (rowParked :: bytes) := by
  induction h with
  | nil => exact hload
  | cons first rest ih =>
    refine ih hunjudged (first.keeps (fun call hcall => hunjudged call ?_) hload)
    obtain ⟨more, hmore⟩ := rest.calls
    rw [hmore]
    exact List.mem_append_left _ hcall

/-- **Every object among the rows walked is handed over.** -/
theorem WalkLoop.handed (hmem : row' ∈ rows) (hne : bytes ≠ []) (hle : bytes.length ≤ settingMax)
    (hload : w.disk.load row' = some (rowParked :: bytes)) : bytes ∈ w'.calls.map Prod.fst := by
  induction h with
  | nil => exact absurd hmem List.not_mem_nil
  | @cons row _ _ _ _ first rest ih =>
    rcases eq_or_ne row' row with rfl | hother
    · obtain ⟨more, hmore⟩ := rest.calls
      rw [hmore, List.map_append]
      exact List.mem_append_left _ (first.handed (loadParked_iff.2 ⟨hload, hne, hle⟩))
    · exact ih ((List.mem_cons.1 hmem).resolve_left hother) ((first.load_ne hother rfl).2 hload)

theorem WalkLoop.removed_le : w'.removed ≤ w.removed + rows.length := by
  induction h with
  | nil => exact le_rfl
  | cons first _ ih =>
    have hstep := first.removed.1
    rw [List.length_cons]
    omega

/-- **Where a row walked is still there, fewer are counted as gone.** -/
theorem WalkLoop.removed_lt (hmem : row' ∈ rows) (hhead : held.head? = some rowParked)
    (hload : w'.disk.load row' = some held) : w'.removed < w.removed + rows.length := by
  induction h with
  | nil => exact absurd hmem List.not_mem_nil
  | @cons row _ _ _ _ first rest ih =>
    have hstep := first.removed
    rw [List.length_cons]
    rcases eq_or_ne row' row with rfl | hother
    · have hrest := rest.removed_le
      rcases hstep.2 with hsame | hnone
      · omega
      · rw [rest.load_imp hhead hload] at hnone
        cases hnone
    · have hrest := ih ((List.mem_cons.1 hmem).resolve_left hother) hload
      omega

end

end Walks

section Judges

/-- Of an unparking, what the walk is told by. -/
def Unparking.walk (u : Unparking) : Walk := ⟨u.disk, u.removed, u.calls⟩

theorem ParkedJudge.keepsParked (judge : ParkedJudge) (hash : HashOps) (d : SettingsDisk)
    (bytes : Bytes) : KeepsParked hash d (judge.judge d bytes).2 :=
  ⟨fun row held hhead => judge.keeps d bytes row held (.inl hhead),
    fun row held _ hhead hload => (judge.keeps d bytes row held (.inr hhead)).2 hload⟩

theorem unparkRow_walk (hash : HashOps) (judge : ParkedJudge) (u : Unparking) (row : Bytes32) :
    WalkRow hash u.walk row (unparkRow judge u row).walk := by
  unfold unparkRow
  cases hload : loadParked u.disk row with
  | none => exact .pass hload
  | some bytes =>
    have hkeeps := judge.keepsParked hash u.disk bytes
    dsimp only
    split
    next hzero =>
      have hkept : WalkRow hash u.walk row _ := .kept hload hkeeps
      rw [← hzero] at hkept
      exact hkept
    next hverdict =>
      split
      next => exact .judged hload hkeeps hverdict (.inl rfl)
      next hgone => exact .judged hload hkeeps hverdict (.inr ⟨rfl, Bool.not_eq_false _ ▸ hgone⟩)

theorem unparkLoop_walk (hash : HashOps) (judge : ParkedJudge) (rows : List Bytes32)
    (u : Unparking) : WalkLoop hash rows u.walk (rows.foldl (unparkRow judge) u).walk := by
  induction rows generalizing u with
  | nil => exact .nil
  | cons row rows ih => exact .cons (unparkRow_walk hash judge u row) (ih (unparkRow judge u row))

/-- An unparking walks nothing, or every row of an object. -/
theorem settingsUnpark_unparks (hash : HashOps) (judge : ParkedJudge) (d : SettingsDisk) :
    Unparks hash d (settingsUnpark hash judge d).2.disk.rows
      (settingsUnpark hash judge d).2.calls := by
  unfold settingsUnpark
  split
  next hzero => exact .none (.inl hzero)
  next hzero =>
    unfold Disk.list
    cases hnext : d.next with
    | done =>
      rw [if_pos (List.length_filterMap_le _ _)]
      exact .walked hzero
        (unparkLoop_walk hash judge _ ⟨⟨d.rows, d.outcomes.tail⟩, 0, 0, false, []⟩)
    | refused => exact .none (.inr (by rw [hnext]; exact Outcome.noConfusion))
    | unanswered => exact .none (.inr (by rw [hnext]; exact Outcome.noConfusion))

end Judges

section Unpark

variable {hash : HashOps} {S : Set Bytes} {rows rows' : SettingRows} {outcomes : List Outcome}
  {calls : List (Bytes × ℤ)} {bytes : Bytes} {row : Bytes32}

/-- The rows of objects are all walked. -/
theorem mem_parkedWalked (outcomes : List Outcome) (hne : bytes ≠ [])
    (hle : bytes.length ≤ settingMax) (h : rows.lookup row = some (rowParked :: bytes)) :
    row ∈ rows.keys.filterMap (parkedWalked ⟨rows, outcomes⟩) := by
  refine List.mem_filterMap.2 ⟨row, ?_, ?_⟩
  · rw [← AList.mem_keys, ← AList.lookup_isSome, h]
    rfl
  · have hload : loadParked ⟨rows, outcomes⟩ row = some bytes := loadParked_iff.2 ⟨h, hne, hle⟩
    rw [parkedWalked, hload]
    rfl

/-- A count written is no row of an object. -/
theorem lookup_parkedCountSave {d : SettingsDisk} {n : UInt64} {held : Bytes}
    (hhead : held.head? = some rowParked)
    (h : (parkedCountSave hash d n).2.rows.lookup row = some held) : d.load row = some held := by
  rcases parkedCountSave_cases hash d n with ⟨-, -, hsame⟩ | ⟨count, -, -, hrows⟩
  · rwa [hsame] at h
  · rw [hrows] at h
    rcases eq_or_ne row count with rfl | hne
    · rw [AList.lookup_insert] at h
      rw [← Option.some.inj h] at hhead
      cases hhead
    · rwa [AList.lookup_insert_ne hne] at h

/-- A row that is not the count's stays where the count is written. -/
theorem lookup_parkedCountSave_ne {d : SettingsDisk} {n : UInt64}
    (hcount : parkedCountRow hash ≠ some row) :
    (parkedCountSave hash d n).2.rows.lookup row = d.load row := by
  rcases parkedCountSave_cases hash d n with ⟨-, -, hsame⟩ | ⟨count, hsome, -, hrows⟩
  · rw [hsame]
    rfl
  · rw [hrows, AList.lookup_insert_ne (by rintro rfl; exact hcount hsome)]
    rfl

/-- **An unparking keeps the invariant.** -/
theorem ParkInv.unparks (hinv : ParkInv hash S rows) (h : Unparks hash ⟨rows, outcomes⟩ rows' calls)
    (hroom : rows.keys.length < 2 ^ 64) : ParkInv hash S rows' := by
  cases h with
  | none => exact hinv
  | @walked w hcount hloop =>
    have hback : ∀ row held, held.head? = some rowParked → (parkedCountSave hash w.disk
        (UInt64.ofNat ((rows.keys.filterMap (parkedWalked ⟨rows, outcomes⟩)).length -
          w.removed))).2.rows.lookup row = some held →
          w.disk.load row = some held ∧ rows.lookup row = some held := by
      intro row held hhead h
      have hload := lookup_parkedCountSave hhead h
      exact ⟨hload, hloop.load_imp hhead hload⟩
    refine ⟨fun row held hlookup hhead =>
      hinv.placed row held (hback row held hhead hlookup).2 hhead,
      fun row held hlookup hhead => ?_⟩
    obtain ⟨hload, hbefore⟩ := hback row held hhead hlookup
    obtain ⟨bytes, -, -, hne, rfl, hrow⟩ := hinv.placed row held hbefore hhead
    have hmem := mem_parkedWalked outcomes hne (parkedRow_some hrow).1 hbefore
    have hlt := hloop.removed_lt hmem hhead hload
    rw [Nat.zero_add] at hlt
    rcases parkedCountSave_cases hash w.disk (UInt64.ofNat
      ((rows.keys.filterMap (parkedWalked ⟨rows, outcomes⟩)).length - w.removed)) with
      ⟨-, -, hsame⟩ | ⟨count, hsome, -, hwritten⟩
    · have hsame' : parkedCount hash w.disk = parkedCount hash ⟨rows, outcomes⟩ :=
        parkedCount_keeps hcount fun row held hrow hhead hload =>
          hloop.load_count hrow hhead hload
      rw [hsame]
      exact hsame' ▸ hcount
    · rw [hwritten, parkedCount_insert hsome]
      have hlen : (rows.keys.filterMap (parkedWalked ⟨rows, outcomes⟩)).length < 2 ^ 64 :=
        (List.length_filterMap_le _ _).trans_lt hroom
      intro hzero
      have hnat := congrArg UInt64.toNat hzero
      rw [UInt64.toNat_ofNat', Nat.mod_eq_of_lt (by omega)] at hnat
      exact absurd hnat (Nat.sub_ne_zero_of_lt hlt)

/-- **What is parked stays where no judge has a verdict on it.** -/
theorem Parked.unparks (h : Parked hash rows bytes) (hinj : hash.InjOn (parkInputs S))
    (hS : bytes ∈ S) (hname : bytes ≠ ascii ".count")
    (hunparks : Unparks hash ⟨rows, outcomes⟩ rows' calls) (hunjudged : Unjudged bytes calls) :
    Parked hash rows' bytes := by
  obtain ⟨row, hrow, hlookup⟩ := h
  refine ⟨row, hrow, ?_⟩
  cases hunparks with
  | none => exact hlookup
  | walked hcount hloop =>
    rw [lookup_parkedCountSave_ne (parkedRow_ne_count hinj hS hname hrow)]
    exact hloop.keeps hunjudged hlookup

/-- **Every object parked is handed over** where the walk is answered. -/
theorem ParkInv.handed (hinv : ParkInv hash S rows)
    (h : Unparks hash ⟨rows, outcomes⟩ rows' calls) (hwalk : outcomes.headD .done = .done)
    {held : Bytes} (hlookup : rows.lookup row = some held) (hhead : held.head? = some rowParked) :
    held.tail ∈ calls.map Prod.fst := by
  obtain ⟨bytes, -, -, hne, rfl, hrow⟩ := hinv.placed row held hlookup hhead
  cases h with
  | none hwhy =>
    rcases hwhy with hzero | hnext
    · exact absurd hzero (hinv.counted row _ hlookup hhead)
    · exact absurd hwalk hnext
  | walked hcount hloop =>
    have hle := (parkedRow_some hrow).1
    exact hloop.handed (mem_parkedWalked outcomes hne hle hlookup) hne hle hlookup

end Unpark

/-! ## Runs -/

section Runs

variable {hash : HashOps} {S : Set Bytes} {rows : SettingRows} {calls : List ParkCall}

/-- **A call that counts keeps the invariant.** -/
theorem ParkInv.step (hinv : ParkInv hash S rows) (hinj : hash.InjOn (parkInputs S))
    {call : ParkCall} (hamong : call.Among S) (hcounted : call.Counted hash rows) :
    ParkInv hash S (parkStep hash rows call) := by
  cases call with
  | park bytes outcomes => exact hinv.park hinj hamong hcounted
  | unpark judge outcomes =>
    exact hinv.unparks (settingsUnpark_unparks hash judge ⟨rows, outcomes⟩) hcounted

/-- **A run whose calls all count keeps it.** -/
theorem ParkInv.run (hinv : ParkInv hash S rows) (hinj : hash.InjOn (parkInputs S))
    (hamong : ∀ call ∈ calls, call.Among S)
    (hcounted : ∀ pre call, pre ++ [call] <+: calls →
      call.Counted hash (pre.foldl (parkStep hash) rows)) :
    ParkInv hash S (calls.foldl (parkStep hash) rows) := by
  refine foldl_induction (fun pre call hle h => ?_) hinv
  have hmem := hle.subset (List.mem_append_right pre (List.mem_singleton_self call))
  exact h.step hinj (hamong call hmem) (hcounted pre call hle)

/-- A parking answered with ok has its object parked. -/
theorem ParkInv.parked_of_ok (hinv : ParkInv hash S rows) (hinj : hash.InjOn (parkInputs S))
    {bytes : Bytes} (hS : bytes ∈ S) {outcomes : List Outcome}
    (hcounted : (ParkCall.park bytes outcomes).Counted hash rows)
    (hok : (settingsPark hash ⟨rows, outcomes⟩ bytes).1 = .ok) :
    bytes ≠ ascii ".count" ∧ Parked hash (parkStep hash rows (.park bytes outcomes)) bytes := by
  show bytes ≠ _ ∧ Parked hash (settingsPark hash ⟨rows, outcomes⟩ bytes).2.rows bytes
  rcases settingsPark_cases hash ⟨rows, outcomes⟩ bytes with
    ⟨hsame, halready⟩ | ⟨row, hne, hrow, hnew, hnext, hwrote⟩
  · obtain ⟨row, hrow, h⟩ := halready hok
    obtain ⟨row', hrow', hlookup⟩ := hinv.parked_of_already hinj hS hrow h
    refine ⟨?_, hsame ▸ ⟨row', hrow', hlookup⟩⟩
    obtain ⟨bytes', -, hname, -, heq, -⟩ := hinv.placed row' _ hlookup rfl
    exact (List.cons.inj heq).2 ▸ hname
  · have hname := (hcounted ⟨hne, hnext, row, hrow, hnew⟩).1
    have hcount := parkedRow_ne_count hinj hS hname hrow
    refine ⟨hname, row, hrow, ?_⟩
    generalize (settingsPark hash ⟨rows, outcomes⟩ bytes).2.rows = rows' at hwrote ⊢
    rw [hok] at hwrote
    cases hwrote with
    | both _ hsome =>
      rw [AList.lookup_insert_ne (by rintro rfl; exact hcount hsome), AList.lookup_insert]

/-- **Nothing set aside is forgotten** in a run whose calls all count what they write. -/
theorem nothing_forgotten (hinj : hash.InjOn (parkInputs S))
    (hnone : ∀ row held, rows.lookup row = some held → held.head? ≠ some rowParked)
    (hamong : ∀ call ∈ calls, call.Among S)
    (hcounted : ∀ pre call, pre ++ [call] <+: calls →
      call.Counted hash (pre.foldl (parkStep hash) rows)) :
    NothingForgotten hash rows calls := by
  have hinv : ParkInv hash S rows :=
    ⟨fun row held h hhead => absurd hhead (hnone row held h),
      fun row held h hhead => absurd hhead (hnone row held h)⟩
  have hend := hinv.run hinj hamong hcounted
  refine ⟨fun judge outcomes hwalk row held h hhead =>
    hend.handed (settingsUnpark_unparks hash judge _) hwalk h hhead, ?_, ?_,
    fun hzero row held h hhead => hend.counted row held h hhead hzero⟩
  · rintro pre bytes outcomes post rfl hok hunjudged
    have hpre : ParkInv hash S (pre.foldl (parkStep hash) rows) := hinv.run hinj
      (fun call hcall => hamong call (List.mem_append_left _ hcall))
      (fun mid call hle => hcounted mid call (hle.trans (List.prefix_append _ _)))
    have hS : bytes ∈ S := hamong (.park bytes outcomes)
      (List.mem_append_right _ List.mem_cons_self)
    obtain ⟨hname, hparked⟩ := hpre.parked_of_ok hinj hS
      (hcounted pre (.park bytes outcomes) ⟨post, by simp⟩) hok
    refine prefix_induction (P := fun mid : List ParkCall =>
      Parked hash ((pre ++ .park bytes outcomes :: mid).foldl (parkStep hash) rows) bytes) ?_ ?_
    · rw [List.foldl_append]
      exact hparked
    · rintro mid call ⟨rest, rfl⟩ h
      rw [← List.cons_append, ← List.append_assoc, List.foldl_append]
      cases call with
      | park bytes' outcomes' =>
        exact h.park hinj hS hname (hamong (.park bytes' outcomes') (by simp)) outcomes'
      | unpark judge outcomes' =>
        exact h.unparks hinj hS hname (settingsUnpark_unparks hash judge _)
          (hunjudged mid judge outcomes' rest (by simp))
  · intro row row' held h h' hhead
    obtain ⟨bytes, hS, -, -, rfl, hrow⟩ := hend.placed row held h hhead
    obtain ⟨bytes', -, -, -, heq, hrow'⟩ := hend.placed row' _ h' hhead
    rw [← (List.cons.inj heq).2] at hrow'
    exact Option.some.inj (hrow.symm.trans hrow')

end Runs

/-- A judge that takes everything and learns nothing. -/
def takingJudge : ParkedJudge := ⟨fun d _ => (1, d), fun _ _ _ _ _ => Iff.rfl⟩

/-- A parking into an empty slot, an unparking that fails and one that takes the object. -/
theorem nothing_forgotten_one : NothingForgotten tailHash ∅
    [.park [1, 147, 5] [], .unpark takingJudge [.refused], .unpark takingJudge []] := by
  refine nothing_forgotten (S := {[1, 147, 5]}) ?_ (fun row held h => by cases h) ?_ ?_
  · rintro x (rfl | ⟨-, rfl, rfl⟩) y (rfl | ⟨-, rfl, rfl⟩) d hx hy
    · rfl
    · exact absurd (hx.trans hy.symm) (by decide)
    · exact absurd (hx.trans hy.symm) (by decide)
    · rfl
  · intro call hcall
    simp only [List.mem_cons, List.not_mem_nil, or_false] at hcall
    rcases hcall with rfl | rfl | rfl
    · rfl
    · trivial
    · trivial
  · refine forall_prefix fun n hn => ?_
    rcases n with - | - | - | n
    · refine fun _ => ⟨by decide, ?_⟩
      unfold CountKept
      rw [if_pos (by decide)]
      decide
    · show (_ : ℕ) < 2 ^ 64
      decide
    · show (_ : ℕ) < 2 ^ 64
      decide
    · exact absurd hn (by simp)

/-- The count's write is refused: parked again the object is found parked, and the
unparking behind hands over nothing. -/
theorem parked_hidden : ¬ NothingForgotten tailHash ∅
    [.park [1, 147, 5] [.done, .refused], .park [1, 147, 5] []] := by
  intro h
  have hrow : (List.foldl (parkStep tailHash) ∅
      [.park [1, 147, 5] [.done, .refused], .park [1, 147, 5] []]).lookup
        (BitVec.ofNat 256 (getBe (parkedInput [1, 147, 5]) 0 32)) =
          some (rowParked :: [1, 147, 5]) := by
    decide
  have hcalls : (settingsUnpark tailHash takingJudge ⟨List.foldl (parkStep tailHash) ∅
      [.park [1, 147, 5] [.done, .refused], .park [1, 147, 5] []], []⟩).2.calls.map Prod.fst =
        [] := by
    decide
  have hmem := h.handed takingJudge [] rfl _ _ hrow rfl
  rw [hcalls] at hmem
  exact List.not_mem_nil hmem

end Node
end Fuzznet
