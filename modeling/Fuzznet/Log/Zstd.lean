/-
# zstd, as the log calls it

The library is not here: what the packer and its readers use of it is a parameter.  A
packer hands it pieces and ends the frame behind the last (`compress`); a reader hands it a
part of a frame and room for what comes out (`decompress`), and is told how much of the
part was taken and whether the frame is complete.

`Lawful` is what `zstd.h` says of the two.  A call takes what it is given and gives out
all that this unpacks to, unless the room ends first; it answers 0 when the frame is
complete and all of it given out.  A call behind that begins another frame: without a byte
of one, it gives nothing and does not answer 0.
-/

import Fuzznet.Wire.Bytes
import Mathlib.Data.List.Basic

namespace Fuzznet
namespace Log

open Wire

/-- What a call of `ZSTD_decompressStream` did: how much of its input it took, what it gave
out, and what it answered, none for an error. -/
structure Unpacked (Stream : Type) where
  stream : Stream
  taken : ℕ
  out : Bytes
  last : Option ℕ

/-- The library. -/
structure Zstd where
  Stream : Type
  /-- `ZSTD_createDCtx`. -/
  start : Stream
  /-- `ZSTD_decompressStream` of an input, into this much room. -/
  decompress : Stream → Bytes → ℕ → Unpacked Stream
  /-- The frame of pieces compressed one behind the other, ended behind the last. -/
  compress : List Bytes → Option Bytes
  /-- How much of its content the first `n` bytes of a frame unpack to. -/
  decoded : Bytes → ℕ → ℕ

/-- What a call does to a stream that has taken `fed` bytes of a frame and given out
`given` bytes of its content. -/
structure Zstd.Called (z : Zstd) (frame content : Bytes) (At : z.Stream → ℕ → ℕ → Prop)
    (fed given room : ℕ) (input : Bytes) (u : Unpacked z.Stream) : Prop where
  at' : At u.stream (fed + u.taken) (given + u.out.length)
  taken : u.taken ≤ input.length
  out : u.out = (content.drop given).take (min room (z.decoded frame (fed + input.length) - given))
  all : z.decoded frame (fed + input.length) ≤ given + room → u.taken = input.length
  last : ∃ n, u.last = some n ∧
    (n = 0 ↔ fed + u.taken = frame.length ∧ given + u.out.length = content.length)

/-- A stream over one frame, from its start to behind its end. -/
structure Zstd.Unpacks (z : Zstd) (frame content : Bytes) (At : z.Stream → ℕ → ℕ → Prop) :
    Prop where
  mono : ∀ m n, m ≤ n → z.decoded frame m ≤ z.decoded frame n
  none : z.decoded frame 0 = 0
  whole : z.decoded frame frame.length = content.length
  start : At z.start 0 0
  call : ∀ s fed given input room, At s fed given →
    ¬ (fed = frame.length ∧ given = content.length) → input <+: frame.drop fed →
    z.Called frame content At fed given room input (z.decompress s input room)
  again : ∀ s room, At s frame.length content.length → ∃ n, n ≠ 0 ∧
    (z.decompress s [] room).taken = 0 ∧ (z.decompress s [] room).out = [] ∧
    (z.decompress s [] room).last = some n

/-- **Decompression inverts compression**, whatever parts the frame is handed over in. -/
def Zstd.Lawful (z : Zstd) : Prop :=
  ∀ parts frame, z.compress parts = some frame → ∃ At, z.Unpacks frame parts.flatten At

/-! ## A library for the runs on fixed files -/

/-- A frame of the simplest kind: each byte behind a 1, and a 0 at the end. -/
def taggedFrame (content : Bytes) : Bytes := content.flatMap (fun b => [1, b]) ++ [0]

/-- Its stream: whether a byte's 1 was taken and the byte is to come. -/
def taggedUnpack : Bool → Bytes → ℕ → Unpacked Bool
  | s, [], _ => ⟨s, 0, [], some 1⟩
  | true, _ :: _, 0 => ⟨true, 0, [], some 1⟩
  | true, b :: t, room + 1 =>
    let u := taggedUnpack false t room
    ⟨u.stream, u.taken + 1, b :: u.out, u.last⟩
  | false, c :: t, room =>
    if c = 0 then ⟨false, 1, [], some 0⟩
    else
      let u := taggedUnpack true t room
      ⟨u.stream, u.taken + 1, u.out, u.last⟩

/-- The library of these frames. -/
def taggedZstd : Zstd where
  Stream := Bool
  start := false
  decompress := taggedUnpack
  compress parts := some (taggedFrame parts.flatten)
  decoded frame n := min (n / 2) ((frame.length - 1) / 2)

theorem length_taggedFrame (content : Bytes) :
    (taggedFrame content).length = 2 * content.length + 1 := by
  induction content with
  | nil => rfl
  | cons b content ih =>
    rw [taggedFrame, List.length_append] at ih ⊢
    rw [List.flatMap_cons, List.length_append, List.length_cons]
    simp only [List.length_cons, List.length_nil] at ih ⊢
    omega

/-- What a call gives of a content, part of it taken. -/
structure TaggedCall (content : Bytes) (s : Bool) (input : Bytes) (room : ℕ)
    (u : Unpacked Bool) : Prop where
  taken : u.taken ≤ input.length
  out : u.out = content.take (min room (min ((s.toNat + input.length) / 2) content.length))
  all : min ((s.toNat + input.length) / 2) content.length ≤ room → u.taken = input.length
  given : u.out.length = min ((s.toNat + u.taken) / 2) content.length
  stream : u.stream = decide ((s.toNat + u.taken) % 2 = 1 ∧ s.toNat + u.taken < 2 * content.length)
  last : u.last = some (if s.toNat + u.taken = 2 * content.length + 1 then 0 else 1)

theorem taggedUnpack_call (content : Bytes) (s : Bool) (input : Bytes) (room : ℕ)
    (h : input <+: (taggedFrame content).drop s.toNat) (hs : s = true → content ≠ []) :
    TaggedCall content s input room (taggedUnpack s input room) := by
  induction input generalizing content s room with
  | nil =>
    have hbit := Bool.toNat_le s
    have hsmall : s.toNat / 2 = 0 := by omega
    have hless : s = true → s.toNat < 2 * content.length := fun h => by
      have := List.length_pos_of_ne_nil (hs h)
      omega
    rw [show taggedUnpack s [] room = ⟨s, 0, [], some 1⟩ by cases s <;> rfl]
    refine ⟨Nat.le_refl _, by simp [hsmall], fun _ => rfl, by simp [hsmall], ?_, ?_⟩
    · cases s with
      | false => rfl
      | true => simpa using hless rfl
    · cases s with
      | false => rfl
      | true =>
        have := hless rfl
        rw [if_neg]
        simp only [Bool.toNat_true]
        omega
  | cons c t ih =>
    cases s with
    | true =>
      obtain ⟨b, Y, rfl⟩ := List.exists_cons_of_ne_nil (hs rfl)
      have hframe : (taggedFrame (b :: Y)).drop true.toNat = b :: taggedFrame Y := rfl
      rw [hframe, List.cons_prefix_cons] at h
      obtain ⟨rfl, ht⟩ := h
      cases room with
      | zero =>
        refine ⟨Nat.zero_le _, by simp [taggedUnpack], fun hle => ?_, ?_, ?_, ?_⟩
        · simp only [Bool.toNat_true, List.length_cons] at hle
          omega
        · simp [taggedUnpack]
        · show true = decide ((1 + 0) % 2 = 1 ∧ 1 + 0 < 2 * (Y.length + 1))
          exact (decide_eq_true ⟨rfl, by omega⟩).symm
        · simp [taggedUnpack]
      | succ room =>
        obtain ⟨h₁, h₂, h₃, h₄, h₅, h₆⟩ := ih Y false room ht (by simp)
        simp only [Bool.toNat_false, Nat.zero_add] at *
        refine ⟨?_, ?_, fun hle => ?_, ?_, ?_, ?_⟩
        · simpa [taggedUnpack] using h₁
        · simp only [taggedUnpack, h₂, Bool.toNat_true, List.length_cons]
          rw [show (1 + (t.length + 1)) / 2 = t.length / 2 + 1 by omega,
            show min (room + 1) (min (t.length / 2 + 1) (Y.length + 1)) =
              min room (min (t.length / 2) Y.length) + 1 by omega, List.take_succ_cons]
        · simp only [Bool.toNat_true, List.length_cons] at hle
          simp only [taggedUnpack, List.length_cons]
          rw [h₃ (by omega)]
        · simp only [taggedUnpack, Bool.toNat_true, List.length_cons, h₄]
          omega
        · simp only [taggedUnpack, h₅, Bool.toNat_true, List.length_cons]
          congr 1
          rw [eq_iff_iff]
          omega
        · simp only [taggedUnpack, h₆, Bool.toNat_true, List.length_cons]
          congr 2
          rw [eq_iff_iff]
          omega
    | false =>
      cases content with
      | nil =>
        have hframe : (taggedFrame []).drop false.toNat = [0] := rfl
        rw [hframe, List.cons_prefix_cons, List.prefix_nil] at h
        obtain ⟨rfl, rfl⟩ := h
        exact ⟨Nat.le_refl _, by simp [taggedUnpack], fun _ => rfl, by simp [taggedUnpack],
          by simp [taggedUnpack], by simp [taggedUnpack]⟩
      | cons b Y =>
        have hframe : (taggedFrame (b :: Y)).drop false.toNat =
          1 :: (taggedFrame (b :: Y)).drop true.toNat := rfl
        rw [hframe, List.cons_prefix_cons] at h
        obtain ⟨rfl, ht⟩ := h
        -- the byte behind the tag is at the place the stream is at
        obtain ⟨h₁, h₂, h₃, h₄, h₅, h₆⟩ := ih (b :: Y) true room ht (by simp)
        have hplace : ∀ n, false.toNat + (n + 1) = true.toNat + n := fun n =>
          (Nat.zero_add _).trans (Nat.add_comm n 1)
        refine ⟨Nat.succ_le_succ h₁, ?_, fun hle => congrArg Nat.succ (h₃ ?_), ?_, ?_, ?_⟩
        · rw [List.length_cons, hplace]
          exact h₂
        · rwa [List.length_cons, hplace] at hle
        · exact h₄.trans (by rw [← hplace]; rfl)
        · exact h₅.trans (by rw [← hplace]; rfl)
        · exact h₆.trans (by rw [← hplace]; rfl)

theorem drop_taggedFrame {content : Bytes} {g : ℕ} (h : g ≤ content.length) :
    (taggedFrame content).drop (2 * g) = taggedFrame (content.drop g) := by
  induction g generalizing content with
  | zero => rfl
  | succ g ih =>
    cases content with
    | nil => simp at h
    | cons b content =>
      rw [List.length_cons] at h
      rw [List.drop_succ_cons, ← ih (by omega), show 2 * (g + 1) = 2 * g + 1 + 1 by omega]
      rfl

/-- Half of a frame that is fed: what was given, and half of the rest. -/
theorem half_fed (given bit more : ℕ) : (2 * given + bit + more) / 2 = given + (bit + more) / 2 := by
  rw [Nat.add_assoc, Nat.mul_add_div Nat.two_pos]

theorem odd_fed (given bit more : ℕ) : (2 * given + bit + more) % 2 = (bit + more) % 2 := by
  rw [Nat.add_assoc, Nat.mul_add_mod]

/-- The frame is fed whole where its content is given and its last byte taken. -/
theorem fed_whole {given bit more n : ℕ} (h : given ≤ n) : bit + more = 2 * (n - given) + 1 ↔
    2 * given + bit + more = 2 * n + 1 ∧ given + min ((bit + more) / 2) (n - given) = n := by
  omega

/-- Where a stream over a tagged frame stands. -/
def TaggedAt (content : Bytes) (s : Bool) (fed given : ℕ) : Prop :=
  fed ≤ 2 * content.length + 1 ∧ given = min (fed / 2) content.length ∧
    s = decide (fed % 2 = 1 ∧ fed < 2 * content.length)

/-- **Tagged frames are such frames as `zstd.h` describes.** -/
theorem taggedZstd_lawful : taggedZstd.Lawful := by
  intro parts frame hframe
  obtain rfl := Option.some.inj hframe
  generalize parts.flatten = content
  have hlen := length_taggedFrame content
  refine ⟨TaggedAt content, ⟨?_, ?_, ?_, ?_, ?_, ?_⟩⟩
  · intro m n hle
    show min _ _ ≤ min _ _
    omega
  · exact Nat.min_eq_left (Nat.zero_le _)
  · show min _ _ = _
    omega
  · exact ⟨Nat.zero_le _, by simp, by simp [taggedZstd]⟩
  · rintro s fed given input room ⟨hfed, hgiven, hs⟩ hmore hinput
    have hpos : fed ≤ 2 * content.length := by omega
    have hg : given = fed / 2 := by omega
    have hbit : fed = 2 * given + s.toNat := by
      rw [hs, hg]
      rcases Nat.mod_two_eq_zero_or_one fed with h₀ | h₁
      · rw [decide_eq_false (by omega)]
        simp only [Bool.toNat_false]
        omega
      · rw [decide_eq_true (by omega)]
        simp only [Bool.toNat_true]
        omega
    have hrest : (taggedFrame content).drop fed =
        (taggedFrame (content.drop given)).drop s.toNat := by
      rw [hbit, ← List.drop_drop, drop_taggedFrame (by omega)]
    have hleft : (content.drop given).length = content.length - given := List.length_drop
    rw [hrest] at hinput
    obtain ⟨h₁, h₂, h₃, h₄, h₅, h₆⟩ := taggedUnpack_call (content.drop given) s input room hinput
      (by
        rintro rfl hnil
        rw [hnil, List.length_nil] at hleft
        simp only [Bool.toNat_true] at hbit
        omega)
    have hlenInput : input.length ≤ 2 * content.length + 1 - fed := by
      have hle := hinput.length_le
      rw [List.length_drop, length_taggedFrame, hleft] at hle
      omega
    have hdec : taggedZstd.decoded (taggedFrame content) (fed + input.length) - given =
        min ((s.toNat + input.length) / 2) (content.length - given) := by
      show min ((fed + input.length) / 2) (((taggedFrame content).length - 1) / 2) - given = _
      rw [hlen, Nat.add_sub_cancel, Nat.mul_div_cancel_left _ Nat.two_pos, hbit, half_fed,
        ← Nat.sub_min_sub_right, Nat.add_sub_cancel_left]
    rw [hleft] at h₂ h₃ h₄ h₅ h₆
    have hgiven' : given ≤ content.length := by omega
    refine ⟨⟨?_, ?_, ?_⟩, h₁, ?_, fun hle => h₃ ?_, ?_⟩
    · show fed + (taggedUnpack s input room).taken ≤ _
      omega
    · show given + (taggedUnpack s input room).out.length =
        min ((fed + (taggedUnpack s input room).taken) / 2) _
      rw [h₄, hbit, half_fed, ← Nat.add_min_add_left, Nat.add_sub_cancel' hgiven']
    · show (taggedUnpack s input room).stream =
        decide ((fed + (taggedUnpack s input room).taken) % 2 = 1 ∧
          fed + (taggedUnpack s input room).taken < _)
      rw [h₅, decide_eq_decide, hbit, odd_fed, Nat.mul_sub, Nat.lt_sub_iff_add_lt', ← Nat.add_assoc]
    · rw [hdec]
      exact h₂
    · rw [← hdec]
      exact Nat.sub_le_iff_le_add'.2 hle
    · refine ⟨_, h₆, ?_⟩
      show _ ↔ fed + (taggedUnpack s input room).taken = _ ∧
        given + (taggedUnpack s input room).out.length = _
      rw [h₄, hbit, hlen, ← fed_whole hgiven']
      simp
  · rintro s room ⟨-, -, hs⟩
    refine ⟨1, by decide, ?_⟩
    cases s <;> exact ⟨rfl, rfl, rfl⟩

end Log
end Fuzznet
