/-
# A record and its line

`log/entry.h` says that a record always has a line, of `FZN_ENTRY_LINE_MAX` characters at the
most, and that the line reads back to the same entry.  The second holds: a line written is one
line, with no control in it, and is read back as the entry and the host it was written for
(`entryClassic_parse`).  The first does not: a record carries any time and a line none past
the year 9999, and `FZN_ENTRY_LINE_MAX` leaves 512 characters for fields that take up to 779.
So an entry that is packed has its line exactly where its time is before the year 10000 and
its fields are short enough (`record_has_line`).
-/

import Fuzznet.Log.Canonical
import Fuzznet.Log.Classic

namespace Fuzznet
namespace Log

open Wire Lib

/-! ## Cause and origin -/

/-- CAUSE and ORIGIN as a line has them. -/
def causedFields (c : Option (EntryName × EntryName)) : Bytes × Bytes :=
  c.elim ([45], [45]) fun c => (60 :: nameText c.1, 60 :: 60 :: nameText c.2)

/-- The names a line's fields give are names. -/
def causedOk (c : Option (EntryName × EntryName)) : Bool :=
  c.all fun c => nameOk c.1 && nameOk c.2

section Caused

variable {c : Option (EntryName × EntryName)} {n : EntryName} {b : UInt8}

theorem entryNameText_ok {cap : ℕ} (h : nameOk n = true) (hcap : 215 < cap) :
    entryNameText n cap = .ok (nameText n) := by
  have hlen := length_nameText h
  have hinst := (length_instanceText n).2
  unfold entryNameText
  rw [if_neg, if_neg (by omega)]
  rintro (hbad | hlong)
  · rw [h] at hbad
    cases hbad
  · omega

theorem causedText_ok (h : causedOk c = true) : causedText c = some (causedFields c) := by
  cases c with
  | none => rfl
  | some c =>
    rw [causedOk, Option.all_some, Bool.and_eq_true] at h
    rw [causedText, entryNameText_ok h.1 (by decide), entryNameText_ok h.2 (by decide)]
    rfl

/-- A name's text begins with a hex digit. -/
theorem nameText_head (n : EntryName) : nameText n ≠ [] ∧ (nameText n).head? ≠ some 60 := by
  have hlen : (hexOf 16 n.machine).length = 32 := length_hexOf 16 n.machine
  match hhex : hexOf 16 n.machine, hlen with
  | d :: t, _ =>
    have hd : IsHex d := isHex_of_mem_hexOf (n := 16) (v := n.machine) (by
      rw [hhex]
      exact List.mem_cons_self)
    rw [nameText, nameLayout, hhex]
    exact ⟨List.cons_ne_nil _ _, fun h => hd.ne (by decide) (Option.some.inj h)⟩

theorem causedParse_fields (h : causedOk c = true) :
    causedParse (causedFields c).1 (causedFields c).2 = some c := by
  cases c with
  | none => rfl
  | some c =>
    rw [causedOk, Option.all_some, Bool.and_eq_true] at h
    obtain ⟨hcause, hhead⟩ := nameText_head c.1
    obtain ⟨horigin, -⟩ := nameText_head c.2
    have hdash : ¬ (60 :: nameText c.1 = [45] ∧ 60 :: 60 :: nameText c.2 = [45]) :=
      fun h => absurd (List.cons.inj h.1).1 (by decide)
    rw [causedFields, Option.elim_some, causedParse, if_neg hdash]
    rw [if_neg (by simp only [hcause, hhead, horigin, or_self, not_false_eq_true]),
      Option.bind_eq_bind, entryNameParse_text h.1, Option.bind_some, entryNameParse_text h.2,
      Option.bind_some]

theorem causedFields_graphic (h : causedOk c = true)
    (hb : b ∈ (causedFields c).1 ∨ b ∈ (causedFields c).2) : Graphic b := by
  cases c with
  | none =>
    rw [causedFields, Option.elim_none, or_self, List.mem_singleton] at hb
    rw [hb]
    exact ⟨by decide, by decide⟩
  | some c =>
    rw [causedOk, Option.all_some, Bool.and_eq_true] at h
    simp only [causedFields, Option.elim_some, List.mem_cons] at hb
    rcases hb with (rfl | hb) | rfl | rfl | hb
    · exact ⟨by decide, by decide⟩
    · exact nameText_graphic h.1 hb
    · exact ⟨by decide, by decide⟩
    · exact ⟨by decide, by decide⟩
    · exact nameText_graphic h.2 hb

theorem causedFields_ne_nil (c : Option (EntryName × EntryName)) :
    (causedFields c).1 ≠ [] ∧ (causedFields c).2 ≠ [] := by
  cases c with
  | none => exact ⟨List.cons_ne_nil _ _, List.cons_ne_nil _ _⟩
  | some c => exact ⟨List.cons_ne_nil _ _, List.cons_ne_nil _ _⟩

end Caused

/-! ## Fields and lines -/

/-- The line before its newline. -/
def LineFields.body (f : LineFields) : Bytes := f.list.flatMap (· ++ [32]) ++ f.text

section Fields

variable {f : LineFields} {line : Bytes} {b : UInt8}

theorem LineFields.line_eq (f : LineFields) : f.line = f.body ++ [newline] := by
  simp [LineFields.line, LineFields.body, LineFields.list]

theorem stripLine_append (t : Bytes) : stripLine (t ++ [newline]) = t := by
  rw [stripLine, List.getLast?_concat, if_pos rfl, List.dropLast_concat]

/-- A line is its body and a newline or none. -/
theorem line_eq_stripLine (line : Bytes) :
    line = stripLine line ∨ line = stripLine line ++ [newline] := by
  unfold stripLine
  split_ifs with hlast
  · obtain ⟨t, ht⟩ := List.getLast?_eq_some_iff.1 hlast
    right
    rw [ht, List.dropLast_concat]
  · exact .inl rfl

/-- **The fields of a line are what it is joined from.** -/
theorem lineFields_eq_some_iff : lineFields line = some f ↔
    (∀ w ∈ f.list, w ≠ [] ∧ 32 ∉ w) ∧ stripLine line = f.body := by
  constructor
  · intro h
    simp only [lineFields, Option.bind_eq_bind, Option.bind_eq_some_iff] at h
    obtain ⟨⟨fs, text⟩, hfields, h⟩ := h
    dsimp only at h
    obtain ⟨-, hall, heq⟩ := fields_eq_some_iff.1 hfields
    split at h
    next =>
      obtain rfl := Option.some.inj h
      exact ⟨hall, heq⟩
    next => cases h
  · rintro ⟨hall, heq⟩
    have hfields : fields 32 9 (stripLine line) = some (f.list, f.text) :=
      fields_eq_some_iff.2 ⟨rfl, hall, heq⟩
    rw [lineFields, Option.bind_eq_bind, hfields]
    rfl

/-- What is read of a field is what was asked of it. -/
theorem fieldsParse_eq_some_iff {e : Entry} {host : Bytes} {machine : Machine} {cap : ℕ} :
    fieldsParse f machine cap = some (e, host) ↔
      (timeParse f.time).map UInt64.ofNat = some e.timeUs ∧
      copyWord f.host wordMax false = some host ∧ e.name.machine = machine ∧
      copyWord f.user wordMax false = some e.name.user ∧
      copyWord f.program wordMax false = some e.name.program ∧
      instanceParse f.inst = some (e.name.pid, e.name.startMs, e.name.position) ∧
      levelOf f.level = some e.level ∧
      copyWord f.subsystem subsystemMax true = some e.subsystem ∧
      causedParse f.cause f.origin = some e.caused ∧
      unescapeText cap f.text = some e.text ∧ e.text.length ≤ textMax := by
  constructor
  · intro h
    simp only [fieldsParse, Option.bind_eq_bind, Option.bind_eq_some_iff] at h
    obtain ⟨us, hus, h', hhost, user, huser, program, hprogram, ⟨pid, start, position⟩, hinst,
      level, hlevel, subsystem, hsubsystem, caused, hcaused, text, htext, h⟩ := h
    split_ifs at h with hlong
    obtain ⟨rfl, rfl⟩ := Prod.mk.inj (Option.some.inj h)
    exact ⟨by rw [hus]; rfl, hhost, rfl, huser, hprogram, hinst, hlevel, hsubsystem, hcaused, htext,
      Nat.not_lt.1 hlong⟩
  · rintro ⟨htime, hhost, rfl, huser, hprogram, hinst, hlevel, hsubsystem, hcaused, htext, hlen⟩
    obtain ⟨us, hus, heq⟩ := Option.map_eq_some_iff.1 htime
    simp only [fieldsParse, hus, hhost, huser, hprogram, hinst, hlevel, hsubsystem, hcaused, htext,
      Option.bind_eq_bind, Option.bind_some, heq]
    rw [if_neg (Nat.not_lt.2 hlen)]

end Fields

/-! ## The line of an entry -/

/-- The fields of an entry's line. -/
def classicFields (e : Entry) (host time : Bytes) : LineFields where
  time := time
  host := host
  user := e.name.user
  program := e.name.program
  inst := instanceText e.name
  level := e.level.letter
  subsystem := e.subsystem
  cause := (causedFields e.caused).1
  origin := (causedFields e.caused).2
  text := captureEscape e.text (textMax * 4 + 1)

/-- The characters of an instance. -/
def instanceSize (n : EntryName) : ℕ :=
  (decimal n.pid.toNat).length + 1 + (decimal n.startMs.toNat).length + 1 +
    (decimal n.position.toNat).length

/-- The characters of a name. -/
def nameTextSize (n : EntryName) : ℕ :=
  32 + 1 + n.user.length + 1 + n.program.length + 1 + instanceSize n

/-- The characters of CAUSE and ORIGIN. -/
def causedSize (c : Option (EntryName × EntryName)) : ℕ :=
  c.elim 2 fun c => 1 + nameTextSize c.1 + (2 + nameTextSize c.2)

/-- The characters an entry takes on a line: its fields, a space behind each, its text escaped,
and a newline. -/
def classicSize (e : Entry) (host : Bytes) : ℕ :=
  timeLen + host.length + e.name.user.length + e.name.program.length + instanceSize e.name + 1 +
    e.subsystem.length + causedSize e.caused + 9 + escapedLen e.text false + 1

section Entry

variable {e : Entry} {host time : Bytes} {b : UInt8} {cap : ℕ}

theorem levelOf_letter (l : EntryLevel) : levelOf l.letter = some l := by
  cases l <;> rfl

theorem letter_graphic (l : EntryLevel) : Graphic l.letter := by
  cases l <;> exact ⟨by decide, by decide⟩

theorem timeParse_graphic {us : ℕ} (h : timeParse time = some us) (hb : b ∈ time) :
    Graphic b := by
  obtain ⟨Y, M, D, H, I, S, F, y, m, d, h', i, s, f, -, rfl, hY, hM, hD, hH, hI, hS, hF, -⟩ :=
    timeParse_some h
  have hdigit {t : Bytes} {n : ℕ} (ht : digits t = some n) (hb : b ∈ t) : Graphic b :=
    graphic_of_isDigit ((digits_some ht).1 b hb)
  rcases mem_timeLayout hb with (hb | hb | hb | hb | hb | hb | hb) | rfl | rfl | rfl | rfl | rfl
  · exact hdigit hY hb
  · exact hdigit hM hb
  · exact hdigit hD hb
  · exact hdigit hH hb
  · exact hdigit hI hb
  · exact hdigit hS hb
  · exact hdigit hF hb
  all_goals exact ⟨by decide, by decide⟩

theorem printable_of_graphic (h : Graphic b) : Printable b := by
  obtain ⟨hlow, hhigh⟩ := h
  refine ⟨by omega, ?_⟩
  rintro rfl
  exact absurd hhigh (by decide)

/-- What is asked of an entry that is packed. -/
theorem entryOk_iff : entryOk e = true ↔ nameOk e.name = true ∧ isSubsystem e.subsystem = true ∧
    e.text.length ≤ textMax ∧ causedOk e.caused = true := by
  rw [entryOk, Bool.and_eq_true, Bool.and_eq_true, Bool.and_eq_true, decide_eq_true_eq, and_assoc,
    and_assoc]
  rfl

/-- **The line of an entry that is packed**: one where its time has a text and the line has
room. -/
theorem entryClassic_ok (hok : entryOk e = true) (hhost : isWord host wordMax = true)
    (hcap : 0 < cap) : entryClassic e host cap =
      match timeText e.timeUs with
      | none => .error .malformed
      | some time =>
        if cap ≤ (classicFields e host time).line.length then .error .room
        else .ok (classicFields e host time).line := by
  obtain ⟨hname, hsubsystem, htext, hcaused⟩ := entryOk_iff.1 hok
  have hinst := (length_instanceText e.name).2
  unfold entryClassic
  rw [if_neg, causedText_ok hcaused]
  · cases htime : timeText e.timeUs with
    | none => rfl
    | some time => rfl
  · rw [hname, hhost, hsubsystem]
    simp only [Bool.true_eq_false, false_or]
    omega

/-- The text of a line is all of the entry's. -/
theorem captureEscape_text (h : e.text.length ≤ textMax) :
    (captureEscape e.text (textMax * 4 + 1)).length = escapedLen e.text false ∧
      ∀ cap, e.text.length ≤ cap →
        unescapeText cap (captureEscape e.text (textMax * 4 + 1)) = some e.text := by
  have hle := escapedLoop_le false e.text.length e.text
  have hroom : escapedLoop false e.text.length e.text < textMax * 4 + 1 := by omega
  rw [captureEscape, escapeImpl, if_neg (by omega)]
  refine ⟨length_escapeLoop hroom, fun cap hcap => ?_⟩
  have hread := unescapeText_escapeLoop (Nat.le_refl _) hroom (cap - e.text.length)
  rwa [Nat.add_sub_cancel' hcap] at hread

theorem captureEscape_printable (bs : Bytes) (room : ℕ) (h : b ∈ captureEscape bs room) :
    Printable b := by
  unfold captureEscape escapeImpl at h
  split_ifs at h
  · cases h
  · exact escapeLoop_printable h

/-- Every field of an entry's line is graphic, and none is empty. -/
theorem classicFields_graphic {us : ℕ} (hok : entryOk e = true)
    (hhost : isWord host wordMax = true) (htime : timeParse time = some us) {w : Bytes}
    (hw : w ∈ (classicFields e host time).list) : w ≠ [] ∧ ∀ b ∈ w, Graphic b := by
  obtain ⟨hname, hsubsystem, -, hcaused⟩ := entryOk_iff.1 hok
  rw [nameOk, Bool.and_eq_true] at hname
  have hword {w : Bytes} (h : isWord w wordMax = true) : w ≠ [] ∧ ∀ b ∈ w, Graphic b :=
    ⟨List.ne_nil_of_length_pos (length_of_isWord h).1, fun b hb => (isWord_graphic h hb).1⟩
  have hnil := causedFields_ne_nil e.caused
  simp only [LineFields.list, classicFields, List.mem_cons, List.not_mem_nil, or_false] at hw
  rcases hw with rfl | rfl | rfl | rfl | rfl | rfl | rfl | rfl | rfl
  · refine ⟨?_, fun b hb => timeParse_graphic htime hb⟩
    rintro rfl
    cases htime
  · exact hword hhost
  · exact hword hname.1
  · exact hword hname.2
  · exact ⟨List.ne_nil_of_length_pos (length_instanceText _).1, fun b => instanceText_graphic⟩
  · refine ⟨List.cons_ne_nil _ _, fun b hb => ?_⟩
    rw [List.mem_singleton.1 hb]
    exact letter_graphic _
  · exact ⟨List.ne_nil_of_length_pos (length_of_isSubsystem hsubsystem).1,
      fun b => isSubsystem_graphic hsubsystem⟩
  · exact ⟨hnil.1, fun b hb => causedFields_graphic hcaused (.inl hb)⟩
  · exact ⟨hnil.2, fun b hb => causedFields_graphic hcaused (.inr hb)⟩

/-- No control stands in a line before its newline. -/
theorem classicFields_body_printable {us : ℕ} (hok : entryOk e = true)
    (hhost : isWord host wordMax = true) (htime : timeParse time = some us)
    (hb : b ∈ (classicFields e host time).body) : Printable b := by
  rcases List.mem_append.1 hb with hb | hb
  · obtain ⟨w, hw, hb⟩ := List.mem_flatMap.1 hb
    rcases List.mem_append.1 hb with hb | hb
    · exact printable_of_graphic ((classicFields_graphic hok hhost htime hw).2 b hb)
    · rw [List.mem_singleton.1 hb]
      exact ⟨by decide, by decide⟩
  · exact captureEscape_printable e.text (textMax * 4 + 1) hb

/-- **A line written is read back as the entry and the host it was written for.** -/
theorem entryClassic_parse (hok : entryOk e = true) (hhost : isWord host wordMax = true)
    (htime : timeParse time = some e.timeUs.toNat) (hcap : e.text.length ≤ cap) :
    entryClassicParse (classicFields e host time).line e.name.machine cap = some (e, host) := by
  obtain ⟨hname, hsubsystem, htext, hcaused⟩ := entryOk_iff.1 hok
  rw [nameOk, Bool.and_eq_true] at hname
  have hcopy {w : Bytes} (hw : isWord w wordMax = true) : copyWord w wordMax false = some w :=
    copyWord_self (length_of_isWord hw).2 (isWord_wordKept hw) (length_of_isWord hw).1
  have hfields : lineFields (classicFields e host time).line =
      some (classicFields e host time) := by
    refine lineFields_eq_some_iff.2 ⟨fun w hw => ?_, ?_⟩
    · obtain ⟨hne, hgraphic⟩ := classicFields_graphic hok hhost htime hw
      exact ⟨hne, fun hspace => (hgraphic 32 hspace).ne (by decide) rfl⟩
    · rw [LineFields.line_eq, stripLine_append]
  rw [entryClassicParse, hfields, Option.bind_some]
  refine fieldsParse_eq_some_iff.2 ⟨?_, hcopy hhost, rfl, hcopy hname.1, hcopy hname.2,
    instanceParse_text e.name, levelOf_letter e.level, ?_, causedParse_fields hcaused,
    (captureEscape_text htext).2 cap hcap, htext⟩
  · change (timeParse time).map UInt64.ofNat = _
    rw [htime, Option.map_some, UInt64.ofNat_toNat]
  · exact copyWord_self (length_of_isSubsystem hsubsystem).2 (isSubsystem_wordKept hsubsystem)
      (length_of_isSubsystem hsubsystem).1

theorem length_instanceText_eq (n : EntryName) : (instanceText n).length = instanceSize n := by
  simp only [instanceText, instanceSize, List.length_append, List.length_cons]
  omega

theorem length_nameText_eq (n : EntryName) : (nameText n).length = nameTextSize n := by
  simp only [nameText, nameLayout, nameTextSize, List.length_append, List.length_cons,
    length_hexOf, length_instanceText_eq]
  omega

/-- An entry's line is as long as its fields and its text. -/
theorem length_classicFields_line (htext : e.text.length ≤ textMax)
    (htime : time.length = timeLen) :
    (classicFields e host time).line.length = classicSize e host := by
  have hcaused : (causedFields e.caused).1.length + (causedFields e.caused).2.length =
      causedSize e.caused := by
    cases e.caused with
    | none => rfl
    | some c =>
      simp only [causedFields, causedSize, Option.elim_some, List.length_cons,
        length_nameText_eq]
      omega
  simp only [LineFields.line, classicFields, List.length_append, List.length_cons, List.length_nil,
    htime, length_instanceText_eq, (captureEscape_text htext).1]
  rw [classicSize, ← hcaused]
  omega

end Entry

/-- What is said of an entry that is packed: it has a line of `FZN_ENTRY_LINE_MAX` characters
at the most, that is one line and is read back as the entry and the host. -/
def HasLine (e : Entry) (host : Bytes) : Prop :=
  ∃ line, entryClassic e host (entryLineMax + 1) = .ok line ∧
    (∃ body, line = body ++ [newline] ∧ ∀ b ∈ body, Printable b) ∧
    ∀ cap, e.text.length ≤ cap → entryClassicParse line e.name.machine cap = some (e, host)

theorem hasLine_iff {e : Entry} {host : Bytes} (hok : entryOk e = true)
    (hhost : isWord host wordMax = true) :
    HasLine e host ↔ e.timeUs.toNat < timeEnd ∧ classicSize e host ≤ entryLineMax := by
  have htext := (entryOk_iff.1 hok).2.2.1
  have hline := entryClassic_ok hok hhost (Nat.succ_pos entryLineMax)
  have hspec := timeText_spec e.timeUs
  by_cases hlt : e.timeUs.toNat < timeEnd
  · rw [if_pos hlt] at hspec
    obtain ⟨time, htime, hlen, hparse⟩ := hspec
    rw [htime] at hline
    dsimp only at hline
    rw [length_classicFields_line htext hlen] at hline
    constructor
    · rintro ⟨line, hwritten, -⟩
      rw [hline] at hwritten
      split_ifs at hwritten with hfull
      exact ⟨hlt, by omega⟩
    · rintro ⟨-, hsize⟩
      rw [if_neg (by omega)] at hline
      exact ⟨_, hline, ⟨_, LineFields.line_eq _,
        fun b => classicFields_body_printable hok hhost hparse⟩,
        fun cap => entryClassic_parse hok hhost hparse⟩
  · rw [if_neg hlt] at hspec
    rw [hspec] at hline
    refine ⟨?_, fun h => absurd h.1 hlt⟩
    rintro ⟨line, hwritten, -⟩
    rw [hline] at hwritten
    cases hwritten

/-- **A record has its line exactly where its time is before the year 10000 and its fields
leave room for its text.**  The time of every microsecond of the years 1970 to 9999 is written
and read back. -/
theorem record_has_line (host : Bytes) :
    (∀ e cap bs, entryPack e cap = .ok bs → isWord host wordMax = true →
      (HasLine e host ↔ e.timeUs.toNat < timeEnd ∧ classicSize e host ≤ entryLineMax)) ∧
    ∀ us : UInt64, us.toNat < timeEnd →
      ∃ t, timeText us = some t ∧ timeParse t = some us.toNat := by
  refine ⟨fun e cap bs hpack hhost => hasLine_iff (entryPack_eq_ok_iff.1 hpack).1 hhost,
    fun us hus => ?_⟩
  have hspec := timeText_spec us
  rw [if_pos hus] at hspec
  obtain ⟨t, ht, -, hparse⟩ := hspec
  exact ⟨t, ht, hparse⟩

/-- An entry of the last microsecond of 2025, with a cause and its origin, whose text has a
newline, a backslash and a byte past the printable ones. -/
def causedEntry : Entry :=
  { userEntry [97] with
    timeUs := 1767225599999999
    caused := some (⟨2, [98], [113], 5, 6, 7⟩, ⟨3, [99], [114], 8, 9, 10⟩)
    text := [104, 10, 92, 233] }

/-- It has its line. -/
theorem record_has_line_caused : HasLine causedEntry [104] := by
  refine ((record_has_line [104]).1 causedEntry recordMax _ rfl (by decide)).2 ⟨by decide, ?_⟩
  have hsize : classicSize causedEntry [104] ≤ 512 := by decide +kernel
  exact hsize.trans (by decide)

/-- **A record of the year 10000 has no line.** -/
theorem record_without_line : ¬ ∀ e cap bs host, entryPack e cap = .ok bs →
    isWord host wordMax = true → HasLine e host := by
  intro h
  have hline := h { userEntry [97] with timeUs := 253402300800000000 } recordMax _ [104] rfl
    (by decide)
  rw [hasLine_iff (by decide) (by decide)] at hline
  exact absurd hline.1 (by decide)

end Log
end Fuzznet
