/-
# The words of an entry

`is_word`, `is_subsystem` and `copy_word` of `log/entry.c`: what a user, a program, a host
and a subsystem may be.  Each is kept as a C string, so a word copied out of a longer text
ends at the first NUL of it and is checked up to there (`copyWord_eq_some_iff`): the word
kept is the text it was copied from where that holds no NUL (`cString_eq_self_iff`), and what
stands behind a NUL is neither checked nor kept.

A word holds graphic bytes alone, no slash among a plain word's (`isWord_graphic`), so it can
stand between the spaces of a line.
-/

import Mathlib.Data.List.TakeWhile
import Fuzznet.Wire.Bytes

namespace Fuzznet
namespace Log

open Wire

/-- `FZN_ENTRY_WORD_MAX`. -/
def wordMax : ℕ := 64

/-- `FZN_ENTRY_SUBSYSTEM_MAX`. -/
def subsystemMax : ℕ := 64

/-- A machine-id, `FZN_ENTRY_MACHINE_LEN` bytes. -/
abbrev Machine := BitVec (8 * 16)

/-- A letter or a digit, in either case. -/
def isAlnum (c : UInt8) : Bool :=
  (97 ≤ c && c ≤ 122) || (65 ≤ c && c ≤ 90) || (48 ≤ c && c ≤ 57)

/-! ## C strings -/

/-- What an array of characters holds as a C string: the bytes before its first NUL. -/
def cString (bs : Bytes) : Bytes := bs.takeWhile (· ≠ 0)

theorem zero_not_mem_cString (bs : Bytes) : 0 ∉ cString bs := by
  intro h
  simpa using List.mem_takeWhile_imp h

theorem cString_of_not_mem {bs : Bytes} (h : 0 ∉ bs) : cString bs = bs := by
  refine List.takeWhile_eq_self_iff.2 fun c hc => ?_
  rw [decide_eq_true_eq]
  rintro rfl
  exact h hc

/-- A text is its own C string where no byte of it is NUL. -/
theorem cString_eq_self_iff {bs : Bytes} : cString bs = bs ↔ 0 ∉ bs := by
  refine ⟨fun h => ?_, cString_of_not_mem⟩
  rw [← h]
  exact zero_not_mem_cString bs

theorem cString_prefix (bs : Bytes) : cString bs <+: bs := List.takeWhile_prefix _

/-! ## Words -/

/-- `word_char`: what a user's, a program's or a host's name holds. -/
def wordChar (c : UInt8) : Bool :=
  isAlnum c || c == 95 || c == 45 || c == 46 || c == 43 || c == 36

/-- `is_word`. -/
def isWord (w : Bytes) (max : ℕ) : Bool :=
  !w.isEmpty && decide (w.length ≤ max) && w.all wordChar

/-- The loop of `is_subsystem`: a slash has a word behind it. -/
def subsystemChars : Bytes → Bool
  | [] => true
  | c :: s =>
    (if c = 47 then s.head?.any (· ≠ 47) else wordChar c) && subsystemChars s

/-- `is_subsystem`: words joined by single slashes. -/
def isSubsystem (s : Bytes) : Bool :=
  s.head?.any (· ≠ 47) && decide (s.length ≤ subsystemMax) && subsystemChars s

/-- What `copy_word` asks of a word, a subsystem or a plain one. -/
def wordKept (max : ℕ) (subsystem : Bool) (w : Bytes) : Bool :=
  if subsystem then isSubsystem w else isWord w max

/-- `copy_word`: the text is copied with a NUL behind it, and what is checked and kept is
the C string. -/
def copyWord (src : Bytes) (max : ℕ) (subsystem : Bool) : Option Bytes :=
  if src.length = 0 ∨ max < src.length then none
  else if wordKept max subsystem (cString src) then some (cString src)
  else none

/-- A byte that is no space, no control and no part of a longer character. -/
def Graphic (c : UInt8) : Prop := 33 ≤ c.toNat ∧ c.toNat ≤ 126

theorem Graphic.ne {c d : UInt8} (h : Graphic c) (hd : d.toNat < 33) : c ≠ d := by
  rintro rfl
  exact absurd h.1 (by omega)

theorem graphic_of_isAlnum {c : UInt8} (h : isAlnum c = true) : Graphic c ∧ c ≠ 47 := by
  simp only [isAlnum, Bool.or_eq_true, Bool.and_eq_true, decide_eq_true_eq,
    UInt8.le_iff_toNat_le, UInt8.reduceToNat] at h
  have hslash : (47 : UInt8).toNat = 47 := rfl
  rw [Graphic, ne_eq, ← UInt8.toNat_inj]
  omega

theorem graphic_of_wordChar {c : UInt8} (h : wordChar c = true) : Graphic c ∧ c ≠ 47 := by
  simp only [wordChar, Bool.or_eq_true, beq_iff_eq] at h
  rcases h with ((((h | rfl) | rfl) | rfl) | rfl) | rfl
  · exact graphic_of_isAlnum h
  all_goals exact ⟨⟨by decide, by decide⟩, by decide⟩

section Words

variable {w src : Bytes} {max : ℕ} {subsystem : Bool} {c : UInt8}

theorem isWord_graphic (h : isWord w max = true) (hc : c ∈ w) : Graphic c ∧ c ≠ 47 := by
  rw [isWord, Bool.and_eq_true, List.all_eq_true] at h
  exact graphic_of_wordChar (h.2 c hc)

theorem subsystemChars_graphic (h : subsystemChars w = true) (hc : c ∈ w) : Graphic c := by
  induction w with
  | nil => exact absurd hc List.not_mem_nil
  | cons d w ih =>
    rw [subsystemChars, Bool.and_eq_true] at h
    rcases List.mem_cons.1 hc with rfl | hc
    · split_ifs at h with hslash
      · subst hslash
        exact ⟨by decide, by decide⟩
      · exact (graphic_of_wordChar h.1).1
    · exact ih h.2 hc

theorem isSubsystem_graphic (h : isSubsystem w = true) (hc : c ∈ w) : Graphic c := by
  rw [isSubsystem, Bool.and_eq_true] at h
  exact subsystemChars_graphic h.2 hc

theorem wordKept_graphic (h : wordKept max subsystem w = true) (hc : c ∈ w) : Graphic c := by
  unfold wordKept at h
  split_ifs at h
  · exact isSubsystem_graphic h hc
  · exact (isWord_graphic h hc).1

theorem isWord_wordKept (h : isWord w max = true) : wordKept max false w = true := h

theorem isSubsystem_wordKept (h : isSubsystem w = true) : wordKept subsystemMax true w = true := h

/-- No byte of a word is NUL. -/
theorem wordKept_zero (h : wordKept max subsystem w = true) : 0 ∉ w :=
  fun hc => (wordKept_graphic h hc).ne (by decide) rfl

theorem length_of_isWord (h : isWord w max = true) : 0 < w.length ∧ w.length ≤ max := by
  rw [isWord, Bool.and_eq_true, Bool.and_eq_true, Bool.not_eq_true', List.isEmpty_eq_false_iff,
    decide_eq_true_eq] at h
  exact ⟨List.length_pos_iff.2 h.1.1, h.1.2⟩

theorem length_of_isSubsystem (h : isSubsystem w = true) :
    0 < w.length ∧ w.length ≤ subsystemMax := by
  rw [isSubsystem, Bool.and_eq_true, Bool.and_eq_true, decide_eq_true_eq] at h
  refine ⟨List.length_pos_iff.2 ?_, h.1.2⟩
  rintro rfl
  cases h.1.1

/-- **A word is copied up to the first NUL of the text it is copied from**, and only that
much is checked. -/
theorem copyWord_eq_some_iff : copyWord src max subsystem = some w ↔
    0 < src.length ∧ src.length ≤ max ∧ cString src = w ∧ wordKept max subsystem w = true := by
  unfold copyWord
  split_ifs with hlen hok
  · exact ⟨fun h => (by cases h), fun h => by omega⟩
  · refine ⟨fun h => ?_, fun h => by rw [h.2.2.1]⟩
    obtain rfl := Option.some.inj h
    exact ⟨by omega, by omega, rfl, hok⟩
  · refine ⟨fun h => (by cases h), fun h => ?_⟩
    rw [h.2.2.1] at hok
    exact absurd h.2.2.2 hok

/-- A word is copied whole. -/
theorem copyWord_self (hlen : w.length ≤ max) (h : wordKept max subsystem w = true)
    (hpos : 0 < w.length) : copyWord w max subsystem = some w :=
  copyWord_eq_some_iff.2 ⟨hpos, hlen, cString_of_not_mem (wordKept_zero h), h⟩

end Words

end Log
end Fuzznet
