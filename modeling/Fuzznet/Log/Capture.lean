/-
# The text of a line, escaped

`utf8_sequence`, `unsafe_code_point`, `escape_impl` and `escaped_len` of `log/capture.c`, and
`unescape` of `log/entry.c` that reads what they write.  Valid UTF-8 stands as it is but for
the C1 controls and the two line separators, a printable byte but for the backslash stands as
it is, and every other byte is `\xNN`.

Whatever bytes a text holds, what is written for it with room enough is read back as them
(`unescapeText_escapeLoop`) and holds no control (`escapeLoop_printable`); and a text that is
read holds none either (`unescapeText_some`).
-/

import Fuzznet.Lib.Text
import Fuzznet.Wire.Bytes

namespace Fuzznet
namespace Log

open Wire Lib

/-! ## Escaping -/

/-- How long a sequence is by its first byte, and the bits of it there. -/
def utf8Lead (b : UInt8) : Option (ℕ × ℕ) :=
  if 0xc2 ≤ b ∧ b ≤ 0xdf then some (2, (b &&& 0x1f).toNat)
  else if 0xe0 ≤ b ∧ b ≤ 0xef then some (3, (b &&& 0x0f).toNat)
  else if 0xf0 ≤ b ∧ b ≤ 0xf4 then some (4, (b &&& 0x07).toNat)
  else none

/-- The bytes behind the first, `k` of them. -/
def utf8Tail : ℕ → ℕ → Bytes → Option ℕ
  | 0, v, _ => some v
  | _ + 1, _, [] => none
  | k + 1, v, b :: bs =>
    if b &&& 0xc0 ≠ 0x80 then none else utf8Tail k (v <<< 6 ||| (b &&& 0x3f).toNat) bs

/-- `utf8_sequence`: the length of the valid sequence a text begins with, and its code
point. -/
def utf8Sequence : Bytes → Option (ℕ × ℕ)
  | [] => none
  | b :: bs => do
    let (need, v) ← utf8Lead b
    if (b :: bs).length < need then none
    else
      let v ← utf8Tail (need - 1) v bs
      if need = 3 ∧ v < 0x800 ∨ need = 4 ∧ v < 0x10000 ∨ 0x10ffff < v ∨
          0xd800 ≤ v ∧ v ≤ 0xdfff then none
      else some (need, v)

/-- `unsafe_code_point`: the C1 controls and the two line separators. -/
def unsafeCodePoint (cp : ℕ) : Prop := 0x80 ≤ cp ∧ cp ≤ 0x9f ∨ cp = 0x2028 ∨ cp = 0x2029

instance (cp : ℕ) : Decidable (unsafeCodePoint cp) := inferInstanceAs (Decidable (_ ∨ _))

/-- A byte of no sequence that stands as it is. -/
def plainByte (space : Bool) (b : UInt8) : Prop :=
  0x20 ≤ b ∧ b < 0x7f ∧ b ≠ 92 ∧ ¬ (space = true ∧ b = 32)

instance (space : Bool) (b : UInt8) : Decidable (plainByte space b) :=
  inferInstanceAs (Decidable (_ ∧ _))

/-- Every byte as `\xNN`. -/
@[grind =] def hexEscape (bs : Bytes) : Bytes :=
  bs.flatMap fun b => [92, 120, hexDigit (b.toNat / 16), hexDigit (b.toNat % 16)]

/-- One turn: how many bytes are taken, and what is written for them. -/
def escapePiece (space : Bool) : Bytes → ℕ × Bytes
  | [] => (0, [])
  | b :: bs =>
    match utf8Sequence (b :: bs) with
    | some (n, cp) =>
      (n, if unsafeCodePoint cp then hexEscape ((b :: bs).take n) else (b :: bs).take n)
    | none => (1, if plainByte space b then [b] else hexEscape [b])

/-- The loop of `escape_impl`, `room` characters left with the NUL's among them.  A piece is
written whole or not at all. -/
@[grind =] def escapeLoop (space : Bool) : ℕ → Bytes → ℕ → Bytes
  | 0, _, _ => []
  | fuel + 1, bs, room =>
    if bs = [] then []
    else if room ≤ (escapePiece space bs).2.length then []
    else (escapePiece space bs).2 ++ escapeLoop space fuel (bs.drop (escapePiece space bs).1)
      (room - (escapePiece space bs).2.length)

/-- `escape_impl` into `cap` characters. -/
def escapeImpl (bs : Bytes) (cap : ℕ) (space : Bool) : Bytes :=
  if cap = 0 then [] else escapeLoop space bs.length bs cap

/-- `fzn_capture_escape`. -/
def captureEscape (bs : Bytes) (cap : ℕ) : Bytes := escapeImpl bs cap false

/-- The loop of `escaped_len`. -/
@[grind =] def escapedLoop (space : Bool) : ℕ → Bytes → ℕ
  | 0, _ => 0
  | fuel + 1, bs =>
    if bs = [] then 0
    else (escapePiece space bs).2.length +
      escapedLoop space fuel (bs.drop (escapePiece space bs).1)

/-- `escaped_len`: the characters `escape_impl` writes for all of a text. -/
def escapedLen (bs : Bytes) (space : Bool) : ℕ := escapedLoop space bs.length bs

/-! ## Reading it back -/

/-- `unescape` into `room` bytes. -/
def unescapeText : ℕ → Bytes → Option Bytes
  | _, [] => some []
  | room, 92 :: 120 :: hi :: lo :: t => do
    let h ← hexValue hi
    let l ← hexValue lo
    if room = 0 then none
    else (unescapeText (room - 1) t).map (UInt8.ofNat (16 * h + l) :: ·)
  | room, b :: t =>
    if b = 92 ∨ b < 0x20 ∨ b = 0x7f then none
    else if room = 0 then none
    else (unescapeText (room - 1) t).map (b :: ·)

/-- A byte a text may stand on its line with. -/
def Printable (b : UInt8) : Prop := 32 ≤ b.toNat ∧ b ≠ 0x7f

/-- A byte that stands for itself. -/
def Verbatim (b : UInt8) : Prop := Printable b ∧ b ≠ 92

section Sequence

variable {bs t : Bytes} {b : UInt8} {n cp v v' need : ℕ} {space : Bool}

theorem utf8Lead_some (h : utf8Lead b = some (need, v)) : 2 ≤ need ∧ 128 ≤ b.toNat := by
  unfold utf8Lead at h
  simp only [UInt8.le_iff_toNat_le, UInt8.reduceToNat] at h
  split_ifs at h <;> cases h <;> omega

theorem utf8Tail_some (h : utf8Tail n v bs = some v') : ∀ b ∈ bs.take n, 128 ≤ b.toNat := by
  induction n generalizing v bs with
  | zero =>
    intro b hb
    rw [List.take_zero] at hb
    cases hb
  | succ n ih =>
    match bs, h with
    | c :: bs, h =>
      rw [utf8Tail] at h
      split_ifs at h with hc
      intro b hb
      rw [List.take_succ_cons] at hb
      rcases List.mem_cons.1 hb with rfl | hb
      · have hmask : b.toNat &&& (0xc0 : UInt8).toNat = (0x80 : UInt8).toNat := by
          rw [← UInt8.toNat_and, not_not.1 hc]
        have hle : b.toNat &&& (0xc0 : UInt8).toNat ≤ b.toNat := Nat.and_le_left
        rw [hmask] at hle
        exact hle
      · exact ih h b hb

/-- **A valid sequence is of two bytes or more, none of them ASCII.** -/
theorem utf8Sequence_some (h : utf8Sequence bs = some (n, cp)) :
    2 ≤ n ∧ n ≤ bs.length ∧ ∀ b ∈ bs.take n, 128 ≤ b.toNat := by
  match bs, h with
  | b :: bs, h =>
    rw [utf8Sequence, Option.bind_eq_bind, Option.bind_eq_some_iff] at h
    obtain ⟨⟨need, v⟩, hlead, h⟩ := h
    dsimp only at h
    split_ifs at h with hlen
    rw [Option.bind_eq_bind, Option.bind_eq_some_iff] at h
    obtain ⟨v', htail, h⟩ := h
    split_ifs at h with hbad
    obtain ⟨rfl, rfl⟩ := Prod.mk.inj (Option.some.inj h)
    obtain ⟨htwo, hb⟩ := utf8Lead_some hlead
    refine ⟨htwo, by omega, fun c hc => ?_⟩
    rw [show need = need - 1 + 1 by omega, List.take_succ_cons] at hc
    rcases List.mem_cons.1 hc with rfl | hc
    · exact hb
    · exact utf8Tail_some htail c hc

theorem verbatim_of_high (h : 128 ≤ b.toNat) : Verbatim b := by
  have hne (c : UInt8) (hc : c.toNat < 128) : b ≠ c := by
    rintro rfl
    omega
  exact ⟨⟨by omega, hne 0x7f (by decide)⟩, hne 92 (by decide)⟩

theorem verbatim_of_plainByte (h : plainByte space b) : Verbatim b := by
  obtain ⟨hlow, hhigh, hslash, -⟩ := h
  refine ⟨⟨?_, ?_⟩, hslash⟩
  · rwa [UInt8.le_iff_toNat_le] at hlow
  · rintro rfl
    exact absurd hhigh (by decide)

/-- What a turn writes for the bytes it takes: the bytes, or each escaped. -/
theorem escapePiece_cases (space : Bool) (hne : bs ≠ []) : ∃ l, l ≠ [] ∧
    bs = l ++ bs.drop (escapePiece space bs).1 ∧
    ((∀ b ∈ l, Verbatim b) ∧ (escapePiece space bs).2 = l ∨
      (escapePiece space bs).2 = hexEscape l) := by
  match bs, hne with
  | b :: bs, _ =>
    rw [escapePiece]
    cases hseq : utf8Sequence (b :: bs) with
    | none =>
      refine ⟨[b], List.cons_ne_nil _ _, rfl, ?_⟩
      dsimp only
      split_ifs with hplain
      · refine .inl ⟨fun c hc => ?_, rfl⟩
        rw [List.mem_singleton.1 hc]
        exact verbatim_of_plainByte hplain
      · exact .inr rfl
    | some r =>
      obtain ⟨htwo, hlen, hhigh⟩ := (utf8Sequence_some hseq :
        2 ≤ r.1 ∧ r.1 ≤ (b :: bs).length ∧ ∀ c ∈ (b :: bs).take r.1, 128 ≤ c.toNat)
      refine ⟨(b :: bs).take r.1, ?_, (List.take_append_drop _ _).symm, ?_⟩
      · exact List.ne_nil_of_length_pos (by rw [List.length_take]; omega)
      · dsimp only
        split_ifs with hunsafe
        · exact .inr rfl
        · exact .inl ⟨fun c hc => verbatim_of_high (hhigh c hc), rfl⟩

end Sequence

/-! ## The round trip -/

section Escape

variable {bs l t : Bytes} {b : UInt8} {room fuel : ℕ} {space : Bool}

theorem length_hexEscape (l : Bytes) : (hexEscape l).length = 4 * l.length := by
  induction l with
  | nil => rfl
  | cons b l ih =>
    rw [hexEscape, List.flatMap_cons, ← hexEscape, List.length_append, ih]
    simp only [List.length_cons, List.length_nil]
    omega

theorem printable_of_isHex (h : IsHex b) : Printable b := by
  rw [IsHex, Option.isSome_iff_exists] at h
  obtain ⟨v, hv⟩ := h
  obtain ⟨hlt, rfl⟩ := hexDigit_of_hexValue hv
  have hall : ∀ n : Fin 16, 32 ≤ (hexDigit n).toNat ∧ hexDigit n ≠ 0x7f := by decide
  exact hall ⟨v, hlt⟩

theorem printable_of_mem_hexEscape (h : b ∈ hexEscape l) : Printable b := by
  obtain ⟨c, -, hc⟩ := List.mem_flatMap.1 h
  have hlt := c.toNat_lt
  simp only [List.mem_cons, List.not_mem_nil, or_false] at hc
  rcases hc with rfl | rfl | rfl | rfl
  · exact ⟨by decide, by decide⟩
  · exact ⟨by decide, by decide⟩
  · exact printable_of_isHex (by rw [IsHex, hexValue_hexDigit (by omega)]; rfl)
  · exact printable_of_isHex (by rw [IsHex, hexValue_hexDigit (by omega)]; rfl)

theorem unescapeText_plain (hb : Verbatim b) (t : Bytes) : unescapeText (room + 1) (b :: t) =
    (unescapeText room t).map (b :: ·) := by
  obtain ⟨⟨hlow, hdel⟩, hslash⟩ := hb
  have hlt : ¬ b < 0x20 := by
    rw [UInt8.lt_iff_toNat_lt]
    exact Nat.not_lt.2 hlow
  rw [unescapeText]
  · rw [if_neg (by simp only [hslash, hlt, hdel, or_self, not_false_eq_true]),
      if_neg (Nat.succ_ne_zero room), Nat.add_sub_cancel]
  · exact fun _ _ _ h _ => hslash h

theorem unescapeText_hex (b : UInt8) (t : Bytes) :
    unescapeText (room + 1) (hexEscape [b] ++ t) = (unescapeText room t).map (b :: ·) := by
  have hlt := b.toNat_lt
  have hbyte : UInt8.ofNat (16 * (b.toNat / 16) + b.toNat % 16) = b := by
    rw [Nat.div_add_mod, UInt8.ofNat_toNat]
  change unescapeText (room + 1)
    (92 :: 120 :: hexDigit (b.toNat / 16) :: hexDigit (b.toNat % 16) :: t) = _
  rw [unescapeText, Option.bind_eq_bind, hexValue_hexDigit (by omega), Option.bind_some,
    hexValue_hexDigit (by omega), Option.bind_some, if_neg (Nat.succ_ne_zero room),
    Nat.add_sub_cancel, hbyte]

/-- What a turn writes is read back as the bytes it took. -/
theorem unescapeText_piece (hpiece : (∀ b ∈ l, Verbatim b) ∧ bs = l ∨ bs = hexEscape l)
    (t : Bytes) : unescapeText (l.length + room) (bs ++ t) =
      (unescapeText room t).map (l ++ ·) := by
  rcases hpiece with ⟨hplain, rfl⟩ | rfl
  · induction bs with
    | nil => simp
    | cons b bs ih =>
      rw [List.cons_append, List.length_cons, Nat.add_right_comm,
        unescapeText_plain (hplain b List.mem_cons_self),
        ih fun c hc => hplain c (List.mem_cons_of_mem b hc), Option.map_map]
      rfl
  · induction l with
    | nil => simp [hexEscape]
    | cons b l ih =>
      have hcons : hexEscape (b :: l) ++ t = hexEscape [b] ++ (hexEscape l ++ t) := by
        rw [hexEscape, hexEscape, hexEscape, List.flatMap_cons, List.flatMap_singleton,
          List.append_assoc]
      rw [hcons, List.length_cons, Nat.add_right_comm, unescapeText_hex, ih, Option.map_map]
      rfl

/-- **A text escaped with room for all of it is read back, whatever its bytes.** -/
theorem unescapeText_escapeLoop (hfuel : bs.length ≤ fuel)
    (hroom : escapedLoop space fuel bs < room) (extra : ℕ) :
    unescapeText (bs.length + extra) (escapeLoop space fuel bs room) = some bs := by
  induction fuel generalizing bs room with
  | zero =>
    obtain rfl := List.eq_nil_of_length_eq_zero (Nat.le_zero.1 hfuel)
    rfl
  | succ fuel ih =>
    rw [escapeLoop]
    rw [escapedLoop] at hroom
    split_ifs at hroom ⊢ with hnil hfull
    · rw [hnil]
      rfl
    · omega
    · obtain ⟨l, hl, hbs, hpiece⟩ := escapePiece_cases space hnil
      generalize escapePiece space bs = piece at hbs hpiece hroom hfull ⊢
      have hlen : bs.length = l.length + (bs.drop piece.1).length := by
        conv_lhs => rw [hbs, List.length_append]
      have hpos := List.length_pos_iff.2 hl
      rw [hlen, Nat.add_assoc, unescapeText_piece hpiece, ih (by omega) (by omega),
        Option.map_some, ← hbs]

/-- What is written with room for all of it is as long as was counted. -/
theorem length_escapeLoop (hroom : escapedLoop space fuel bs < room) :
    (escapeLoop space fuel bs room).length = escapedLoop space fuel bs := by
  induction fuel generalizing bs room with
  | zero => rfl
  | succ fuel ih =>
    rw [escapeLoop]
    rw [escapedLoop] at hroom ⊢
    split_ifs at hroom ⊢ with hnil hfull
    · rfl
    · omega
    · rw [List.length_append, ih (by omega)]

/-- A byte is at most four characters. -/
theorem escapedLoop_le (space : Bool) (fuel : ℕ) (bs : Bytes) :
    escapedLoop space fuel bs ≤ 4 * bs.length := by
  induction fuel generalizing bs with
  | zero => exact Nat.zero_le _
  | succ fuel ih =>
    rw [escapedLoop]
    split_ifs with hnil
    · exact Nat.zero_le _
    · obtain ⟨l, -, hbs, hpiece⟩ := escapePiece_cases space hnil
      generalize escapePiece space bs = piece at hbs hpiece ⊢
      have hrest := ih (bs.drop piece.1)
      have hlen : bs.length = l.length + (bs.drop piece.1).length := by
        conv_lhs => rw [hbs, List.length_append]
      rcases hpiece with ⟨-, heq⟩ | heq
      · rw [heq]
        omega
      · rw [heq, length_hexEscape]
        omega

/-- **No control stands in what is written.** -/
theorem escapeLoop_printable (h : b ∈ escapeLoop space fuel bs room) : Printable b := by
  induction fuel generalizing bs room with
  | zero => cases h
  | succ fuel ih =>
    rw [escapeLoop] at h
    split_ifs at h with hnil hfull
    · cases h
    · cases h
    · rcases List.mem_append.1 h with h | h
      · obtain ⟨l, -, -, hpiece⟩ := escapePiece_cases space hnil
        rcases hpiece with ⟨hplain, heq⟩ | heq
        · rw [heq] at h
          exact (hplain b h).1
        · rw [heq] at h
          exact printable_of_mem_hexEscape h
      · exact ih h

/-- **Nor in what is read**, and no more is read than there is room for. -/
theorem unescapeText_some (h : unescapeText room t = some bs) :
    (∀ b ∈ t, Printable b) ∧ bs.length ≤ room := by
  fun_induction unescapeText room t generalizing bs with
  | case1 room =>
    obtain rfl := Option.some.inj h
    exact ⟨fun b hb => absurd hb List.not_mem_nil, Nat.zero_le room⟩
  | case2 room hi lo t ih =>
    rw [Option.bind_eq_bind, Option.bind_eq_some_iff] at h
    obtain ⟨x, hx, h⟩ := h
    rw [Option.bind_eq_some_iff] at h
    obtain ⟨y, hy, h⟩ := h
    split_ifs at h with hroom
    obtain ⟨rest, hrest, rfl⟩ := Option.map_eq_some_iff.1 h
    obtain ⟨hall, hlen⟩ := ih hrest
    refine ⟨fun b hb => ?_, ?_⟩
    · simp only [List.mem_cons] at hb
      rcases hb with rfl | rfl | rfl | rfl | hb
      · exact ⟨by decide, by decide⟩
      · exact ⟨by decide, by decide⟩
      · exact printable_of_isHex (by rw [IsHex, hx]; rfl)
      · exact printable_of_isHex (by rw [IsHex, hy]; rfl)
      · exact hall b hb
    · rw [List.length_cons]
      omega
  | case3 => cases h
  | case4 => cases h
  | case5 room b t hne hok hroom ih =>
    obtain ⟨rest, hrest, rfl⟩ := Option.map_eq_some_iff.1 h
    obtain ⟨hall, hlen⟩ := ih hrest
    rw [not_or, not_or, UInt8.lt_iff_toNat_lt] at hok
    refine ⟨fun c hc => ?_, ?_⟩
    · rcases List.mem_cons.1 hc with rfl | hc
      · exact ⟨Nat.not_lt.1 hok.2.1, hok.2.2⟩
      · exact hall c hc
    · rw [List.length_cons]
      omega

end Escape

end Log
end Fuzznet
