/-
# The classic line of an entry

`fzn_entry_classic` and `fzn_entry_classic_parse` of `log/entry.c`, with the names they write
and read:

    TIME HOST USER PROGRAM PID@START#POS LEVEL SUBSYSTEM CAUSE ORIGIN TEXT

nine fields, each ended by one space, and the text escaped to the end of the line.  A name is
`MACHINEHEX/USER/PROGRAM/PID@START#POS`.

Each helper's law is stated beside it: what is written is read back (`instanceParse_text`,
`nameParse_text`, `causedParse_text`), and what is read is made up of what was asked for
(`instanceParse_some`, `machineParse_some`, `nameParse_some`).
-/

import Fuzznet.Lib.Fields
import Fuzznet.Log.Calendar
import Fuzznet.Log.Capture
import Fuzznet.Log.Entry
import Fuzznet.Log.Trailer

namespace Fuzznet
namespace Log

open Wire Lib

/-- `FZN_ENTRY_LINE_MAX`. -/
def entryLineMax : ℕ := 512 + textMax * 4

/-! ## Levels and numbers -/

/-- `fzn_entry_level_letter`. -/
def EntryLevel.letter : EntryLevel → UInt8
  | .critical => 67
  | .error => 69
  | .warning => 87
  | .note => 78
  | .info => 73
  | .verbose => 86
  | .debug => 68
  | .trace => 84

/-- `level_of`. -/
def levelOf : UInt8 → Option EntryLevel
  | 67 => some .critical
  | 69 => some .error
  | 87 => some .warning
  | 78 => some .note
  | 73 => some .info
  | 86 => some .verbose
  | 68 => some .debug
  | 84 => some .trace
  | _ => none

/-- The letters are those of `LETTERS`, in order. -/
example : [EntryLevel.critical, .error, .warning, .note, .info, .verbose, .debug, .trace].map
    EntryLevel.letter = ascii "CEWNIVDT" := by
  decide

/-- `parse_u64`. -/
def parseU64 (t : Bytes) : Option UInt64 :=
  if t.length = 0 ∨ 20 < t.length ∨ 1 < t.length ∧ t.head? = some 48 then none
  else (fromDecimal (2 ^ 64 - 1) t).map UInt64.ofNat

/-! ## Names -/

/-- `fzn_entry_machine_parse`: 32 hex digits, and perhaps a newline. -/
def machineParse (t : Bytes) : Option Machine :=
  let t := if t.length = 33 ∧ t.getD 32 0 = newline then t.take 32 else t
  if t.length ≠ 32 then none else readHex 16 t

/-- `instance_text`: `PID@START#POS`. -/
def instanceText (n : EntryName) : Bytes :=
  decimal n.pid.toNat ++ 64 :: (decimal n.startMs.toNat ++ 35 :: decimal n.position.toNat)

/-- `instance_parse`: the process's number, its start and the position. -/
def instanceParse (t : Bytes) : Option (UInt32 × UInt64 × UInt64) := do
  let (pid, t) ← cutAt 64 t
  let (start, position) ← cutAt 35 t
  let pid ← parseU64 pid
  if 2 ^ 32 ≤ pid.toNat then none
  else
    let start ← parseU64 start
    let position ← parseU64 position
    some (UInt32.ofNat pid.toNat, start, position)

/-- The characters of a name. -/
def nameLayout (machine user program inst : Bytes) : Bytes :=
  machine ++ 47 :: (user ++ 47 :: (program ++ 47 :: inst))

/-- The text of a name, `MACHINEHEX/USER/PROGRAM/PID@START#POS`. -/
def nameText (n : EntryName) : Bytes :=
  nameLayout (hexOf 16 n.machine) n.user n.program (instanceText n)

/-- `fzn_entry_name_text` into `cap` characters. -/
def entryNameText (n : EntryName) (cap : ℕ) : Except EntryErr Bytes :=
  if nameOk n = false ∨ 64 ≤ (instanceText n).length then .error .malformed
  else if cap ≤ (nameText n).length then .error .room
  else .ok (nameText n)

/-- The parts of a name's text, at its first three slashes. -/
def nameParts (t : Bytes) : Option (Bytes × Bytes × Bytes × Bytes) := do
  let (machine, t) ← cutAt 47 t
  let (user, t) ← cutAt 47 t
  let (program, inst) ← cutAt 47 t
  some (machine, user, program, inst)

/-- `fzn_entry_name_parse`. -/
def entryNameParse (t : Bytes) : Option EntryName := do
  let (machine, user, program, inst) ← nameParts t
  let machine ← machineParse machine
  let user ← copyWord user wordMax false
  let program ← copyWord program wordMax false
  let (pid, startMs, position) ← instanceParse inst
  some ⟨machine, user, program, pid, startMs, position⟩

/-! ## The line -/

/-- The size of `cause` and `origin` in `fzn_entry_classic`. -/
def causeSize : ℕ := 16 * 2 + 2 * wordMax + 72

/-- The CAUSE and the ORIGIN field. -/
def causedText : Option (EntryName × EntryName) → Option (Bytes × Bytes)
  | none => some ([45], [45])
  | some c =>
    match entryNameText c.1 (causeSize - 1), entryNameText c.2 (causeSize - 2) with
    | .ok cause, .ok origin => some (60 :: cause, 60 :: 60 :: origin)
    | _, _ => none

/-- The fields of a line, and its text. -/
structure LineFields where
  time : Bytes
  host : Bytes
  user : Bytes
  program : Bytes
  inst : Bytes
  level : UInt8
  subsystem : Bytes
  cause : Bytes
  origin : Bytes
  text : Bytes

/-- The nine fields in order. -/
def LineFields.list (f : LineFields) : List Bytes :=
  [f.time, f.host, f.user, f.program, f.inst, [f.level], f.subsystem, f.cause, f.origin]

/-- The characters of a line. -/
def LineFields.line (f : LineFields) : Bytes :=
  f.time ++ 32 :: (f.host ++ 32 :: (f.user ++ 32 :: (f.program ++ 32 :: (f.inst ++ 32 ::
    (f.level :: 32 :: (f.subsystem ++ 32 :: (f.cause ++ 32 :: (f.origin ++ 32 ::
      (f.text ++ [newline])))))))))

/-- `fzn_entry_classic` into `cap` characters. -/
def entryClassic (e : Entry) (host : Bytes) (cap : ℕ) : Except EntryErr Bytes :=
  if cap = 0 ∨ nameOk e.name = false ∨ isWord host wordMax = false ∨
      isSubsystem e.subsystem = false ∨ textMax < e.text.length ∨
      64 ≤ (instanceText e.name).length then .error .malformed
  else
    match timeText e.timeUs, causedText e.caused with
    | some time, some (cause, origin) =>
      let line := LineFields.line
        { time := time
          host := host
          user := e.name.user
          program := e.name.program
          inst := instanceText e.name
          level := e.level.letter
          subsystem := e.subsystem
          cause := cause
          origin := origin
          text := captureEscape e.text (textMax * 4 + 1) }
      if cap ≤ line.length then .error .room else .ok line
    | _, _ => .error .malformed

/-- The line without the newline it may end in. -/
def stripLine (line : Bytes) : Bytes :=
  if line.getLast? = some newline then line.dropLast else line

/-- The nine fields of a line, the level's of one letter, and the text behind them. -/
def lineFields (line : Bytes) : Option LineFields := do
  let (fs, text) ← fields 32 9 (stripLine line)
  match fs with
  | [time, host, user, program, inst, [level], subsystem, cause, origin] =>
    some { time := time
           host := host
           user := user
           program := program
           inst := inst
           level := level
           subsystem := subsystem
           cause := cause
           origin := origin
           text := text }
  | _ => none

/-- CAUSE and ORIGIN read: both or neither. -/
def causedParse (cause origin : Bytes) : Option (Option (EntryName × EntryName)) :=
  if cause = [45] ∧ origin = [45] then some none
  else
    match cause, origin with
    | 60 :: cause, 60 :: 60 :: origin =>
      if cause = [] ∨ cause.head? = some 60 ∨ origin = [] then none
      else do
        let cause ← entryNameParse cause
        let origin ← entryNameParse origin
        some (some (cause, origin))
    | _, _ => none

/-- What `fzn_entry_classic_parse` makes of the fields: the entry and the host. -/
def fieldsParse (f : LineFields) (machine : Machine) (cap : ℕ) : Option (Entry × Bytes) := do
  let us ← timeParse f.time
  let host ← copyWord f.host wordMax false
  let user ← copyWord f.user wordMax false
  let program ← copyWord f.program wordMax false
  let (pid, startMs, position) ← instanceParse f.inst
  let level ← levelOf f.level
  let subsystem ← copyWord f.subsystem subsystemMax true
  let caused ← causedParse f.cause f.origin
  let text ← unescapeText cap f.text
  if textMax < text.length then none
  else
    some ({ name := ⟨machine, user, program, pid, startMs, position⟩
            timeUs := UInt64.ofNat us
            level := level
            subsystem := subsystem
            caused := caused
            text := text }, host)

/-- `fzn_entry_classic_parse` with the file's machine and room for `cap` bytes of text. -/
def entryClassicParse (line : Bytes) (machine : Machine) (cap : ℕ) : Option (Entry × Bytes) :=
  (lineFields line).bind fun f => fieldsParse f machine cap

/-! ## Numbers and instances -/

section Number

variable {t : Bytes} {c : UInt8}

instance (c : UInt8) : Decidable (IsDigit c) := inferInstanceAs (Decidable (_ ∧ _))

theorem graphic_of_isDigit (h : IsDigit c) : Graphic c := by
  rw [IsDigit] at h
  rw [Graphic]
  omega

theorem not_mem_decimal {d : UInt8} (n : ℕ) (hd : ¬ IsDigit d) : d ∉ decimal n :=
  fun h => hd (isDigit_of_mem_decimal h)

/-- No zero leads a number but 0. -/
theorem head_decimal {n : ℕ} (h : 0 < n) : (decimal n).head? ≠ some 48 := by
  induction n using Nat.strong_induction_on with
  | _ n ih =>
    rcases Nat.lt_or_ge n 10 with hn | hn
    · rw [decimal_of_lt hn, List.head?_cons]
      intro heq
      have hnat := toNat_decimalDigit hn
      rw [Option.some.inj heq] at hnat
      have h₀ : (48 : UInt8).toNat = 48 := rfl
      omega
    · have hfront := ih (n / 10) (by omega) (by omega)
      obtain ⟨c, t, heq⟩ := List.exists_cons_of_ne_nil (decimal_ne_nil (n / 10))
      rw [heq] at hfront
      rw [decimal_of_ge hn, heq]
      exact hfront

theorem length_decimal_u64 (n : UInt64) :
    0 < (decimal n.toNat).length ∧ (decimal n.toNat).length ≤ 20 :=
  ⟨List.length_pos_iff.2 (decimal_ne_nil _),
    length_decimal_le (lt_of_lt_of_le n.toNat_lt (by norm_num))⟩

theorem parseU64_decimal (n : UInt64) : parseU64 (decimal n.toNat) = some n := by
  have hlt := n.toNat_lt
  obtain ⟨hpos, hlen⟩ := length_decimal_u64 n
  unfold parseU64
  rw [if_neg, fromDecimal_decimal (by omega), Option.map_some, UInt64.ofNat_toNat]
  rintro (h | h | ⟨h, hzero⟩)
  · omega
  · omega
  · rcases Nat.eq_zero_or_pos n.toNat with hn | hn
    · rw [hn] at h
      exact absurd h (by decide)
    · exact head_decimal hn hzero

theorem parseU64_some {n : UInt64} (h : parseU64 t = some n) : ∀ c ∈ t, IsDigit c := by
  unfold parseU64 at h
  split_ifs at h with hshape
  obtain ⟨v, hv, -⟩ := Option.map_eq_some_iff.1 h
  exact (fromDecimal_some (by norm_num) hv).1

theorem instanceParse_text (n : EntryName) :
    instanceParse (instanceText n) = some (n.pid, n.startMs, n.position) := by
  have hpid := n.pid.toNat_lt
  have hwide : (UInt64.ofNat n.pid.toNat).toNat = n.pid.toNat := by
    rw [UInt64.toNat_ofNat']
    omega
  have hread := parseU64_decimal (UInt64.ofNat n.pid.toNat)
  rw [hwide] at hread
  unfold instanceParse instanceText
  rw [Option.bind_eq_bind, cutAt_append (not_mem_decimal _ (by decide)), Option.bind_some]
  dsimp only
  rw [Option.bind_eq_bind, cutAt_append (not_mem_decimal _ (by decide)), Option.bind_some]
  dsimp only
  rw [hread, Option.bind_some, hwide, if_neg (by omega), parseU64_decimal, Option.bind_some,
    parseU64_decimal, Option.bind_some, UInt32.ofNat_toNat]

theorem instanceParse_some {r : UInt32 × UInt64 × UInt64} (h : instanceParse t = some r)
    (hc : c ∈ t) : Graphic c := by
  simp only [instanceParse, Option.bind_eq_bind, Option.bind_eq_some_iff] at h
  obtain ⟨⟨pid, t'⟩, hat, ⟨start, position⟩, hhash, x, hpid, h⟩ := h
  split_ifs at h with hwide
  simp only [Option.bind_eq_some_iff] at h
  obtain ⟨y, hstart, z, hposition, -⟩ := h
  obtain ⟨rfl, -⟩ := cutAt_eq_some_iff.1 hat
  dsimp only at hhash hpid hstart hposition hc
  obtain ⟨rfl, -⟩ := cutAt_eq_some_iff.1 hhash
  simp only [List.mem_append, List.mem_cons] at hc
  rcases hc with hc | rfl | hc | rfl | hc
  · exact graphic_of_isDigit (parseU64_some hpid c hc)
  · exact ⟨by decide, by decide⟩
  · exact graphic_of_isDigit (parseU64_some hstart c hc)
  · exact ⟨by decide, by decide⟩
  · exact graphic_of_isDigit (parseU64_some hposition c hc)

/-- An instance is graphic, and fits where it is written. -/
theorem instanceText_graphic {n : EntryName} (hc : c ∈ instanceText n) : Graphic c :=
  instanceParse_some (instanceParse_text n) hc

theorem length_instanceText (n : EntryName) : 0 < (instanceText n).length ∧
    (instanceText n).length ≤ 52 := by
  have hpid : (decimal n.pid.toNat).length ≤ 10 :=
    length_decimal_le (lt_of_lt_of_le n.pid.toNat_lt (by norm_num))
  have hstart := length_decimal_u64 n.startMs
  have hposition := length_decimal_u64 n.position
  simp only [instanceText, List.length_append, List.length_cons]
  omega

end Number

/-! ## Names -/

section Name

variable {t : Bytes} {c : UInt8} {m : Machine} {n : EntryName}

theorem graphic_of_isHex (h : IsHex c) : Graphic c := by
  rw [IsHex, Option.isSome_iff_exists] at h
  obtain ⟨v, hv⟩ := h
  obtain ⟨hlt, rfl⟩ := hexDigit_of_hexValue hv
  have hall : ∀ n : Fin 16, 33 ≤ (hexDigit n).toNat ∧ (hexDigit n).toNat ≤ 126 := by decide
  exact hall ⟨v, hlt⟩

theorem hexOf_graphic (hc : c ∈ hexOf 16 m) : Graphic c := graphic_of_isHex (isHex_of_mem_hexOf hc)

theorem machineParse_hexOf (m : Machine) : machineParse (hexOf 16 m) = some m := by
  have hlen : (hexOf 16 m).length = 32 := length_hexOf 16 m
  have hread := readHex_hexOf m []
  rw [List.append_nil] at hread
  unfold machineParse
  dsimp only
  rw [if_neg (show ¬ ((hexOf 16 m).length = 33 ∧ _) by omega), if_neg (not_not.2 hlen), hread]

/-- **A machine is read from its digits, a newline behind them or none.** -/
theorem machineParse_some (h : machineParse t = some m) :
    t = hexOf 16 m ∨ t = hexOf 16 m ++ [newline] := by
  have hdigits {t : Bytes} (hlen : t.length = 32) (h : readHex 16 t = some m) :
      t = hexOf 16 m := by
    have heq := eq_hexOf_of_readHex h
    rwa [List.drop_eq_nil_of_le (by omega), List.append_nil] at heq
  unfold machineParse at h
  dsimp only at h
  by_cases hnewline : t.length = 33 ∧ t.getD 32 0 = newline
  · rw [if_pos hnewline] at h
    split_ifs at h with hlen
    rw [not_not] at hlen
    right
    rw [← hdigits hlen h, ← hnewline.2]
    have hdrop := take_cons_drop (by omega) (rfl : t.getD 32 0 = _)
    rw [List.drop_eq_nil_of_le (i := 32 + 1) (by omega)] at hdrop
    rw [← hdrop, List.take_append_drop]
  · rw [if_neg hnewline] at h
    split_ifs at h with hlen
    exact .inl (hdigits (not_not.1 hlen) h)

theorem nameParts_eq_some_iff {m u p i : Bytes} : nameParts t = some (m, u, p, i) ↔
    t = nameLayout m u p i ∧ 47 ∉ m ∧ 47 ∉ u ∧ 47 ∉ p := by
  constructor
  · intro h
    simp only [nameParts, Option.bind_eq_bind, Option.bind_eq_some_iff] at h
    obtain ⟨⟨m', t'⟩, hm, ⟨u', t''⟩, hu, ⟨p', i'⟩, hp, heq⟩ := h
    obtain ⟨rfl, rfl, rfl, rfl⟩ : m' = m ∧ u' = u ∧ p' = p ∧ i' = i := by simpa using heq
    obtain ⟨rfl, hm'⟩ := cutAt_eq_some_iff.1 hm
    dsimp only at hu hp
    obtain ⟨rfl, hu'⟩ := cutAt_eq_some_iff.1 hu
    obtain ⟨rfl, hp'⟩ := cutAt_eq_some_iff.1 hp
    exact ⟨rfl, hm', hu', hp'⟩
  · rintro ⟨rfl, hm, hu, hp⟩
    simp only [nameParts, nameLayout, cutAt_append hm, cutAt_append hu, cutAt_append hp,
      Option.bind_eq_bind, Option.bind_some]

theorem entryNameParse_eq_some_iff : entryNameParse t = some n ↔
    ∃ m u p i, nameParts t = some (m, u, p, i) ∧ machineParse m = some n.machine ∧
      copyWord u wordMax false = some n.user ∧ copyWord p wordMax false = some n.program ∧
      instanceParse i = some (n.pid, n.startMs, n.position) := by
  constructor
  · intro h
    simp only [entryNameParse, Option.bind_eq_bind, Option.bind_eq_some_iff] at h
    obtain ⟨⟨m, u, p, i⟩, hparts, machine, hm, user, hu, program, hp, ⟨pid, start, pos⟩, hi,
      heq⟩ := h
    obtain rfl := Option.some.inj heq
    exact ⟨m, u, p, i, hparts, hm, hu, hp, hi⟩
  · rintro ⟨m, u, p, i, hparts, hm, hu, hp, hi⟩
    simp only [entryNameParse, hparts, hm, hu, hp, hi, Option.bind_eq_bind, Option.bind_some]

/-- **A name written is read back.** -/
theorem entryNameParse_text (h : nameOk n = true) : entryNameParse (nameText n) = some n := by
  rw [nameOk, Bool.and_eq_true] at h
  have hslash {w : Bytes} (hw : isWord w wordMax = true) : 47 ∉ w :=
    fun hc => (isWord_graphic hw hc).2 rfl
  have hcopy {w : Bytes} (hw : isWord w wordMax = true) : copyWord w wordMax false = some w :=
    copyWord_self (length_of_isWord hw).2 (isWord_wordKept hw) (length_of_isWord hw).1
  have hhex : 47 ∉ hexOf 16 n.machine := fun hc => (isHex_of_mem_hexOf hc).ne (by decide) rfl
  exact entryNameParse_eq_some_iff.2 ⟨_, _, _, _,
    nameParts_eq_some_iff.2 ⟨rfl, hhex, hslash h.1, hslash h.2⟩, machineParse_hexOf _, hcopy h.1,
    hcopy h.2, instanceParse_text n⟩

theorem entryNameParse_nameOk (h : entryNameParse t = some n) : nameOk n = true := by
  obtain ⟨m, u, p, i, -, -, hu, hp, -⟩ := entryNameParse_eq_some_iff.1 h
  rw [nameOk, (copyWord_false.1 hu).2.2, (copyWord_false.1 hp).2.2, Bool.and_self]

theorem nameText_graphic (h : nameOk n = true) (hc : c ∈ nameText n) : Graphic c := by
  rw [nameOk, Bool.and_eq_true] at h
  simp only [nameText, nameLayout, List.mem_append, List.mem_cons] at hc
  rcases hc with hc | rfl | hc | rfl | hc | rfl | hc
  · exact hexOf_graphic hc
  · exact ⟨by decide, by decide⟩
  · exact (isWord_graphic h.1 hc).1
  · exact ⟨by decide, by decide⟩
  · exact (isWord_graphic h.2 hc).1
  · exact ⟨by decide, by decide⟩
  · exact instanceText_graphic hc

/-- A name's text has room wherever a line writes one. -/
theorem length_nameText (h : nameOk n = true) : (nameText n).length ≤ 215 := by
  rw [nameOk, Bool.and_eq_true] at h
  have hu := (length_of_isWord h.1).2
  have hp := (length_of_isWord h.2).2
  have hi := length_instanceText n
  rw [wordMax] at hu hp
  simp only [nameText, nameLayout, List.length_append, List.length_cons, length_hexOf]
  omega

end Name

end Log
end Fuzznet
