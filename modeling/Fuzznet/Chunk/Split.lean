/-
# Planning the cut

`chunk/split.c`.  A message of `total` bytes is cut into pieces of `chunk_size` bytes,
the last one shorter; a message of one piece has its own length as stride.
`fzn_split_at` takes a plan it does not trust and answers the range of one piece.

`splitPlan_cut` says what an accepted plan is, and `cutPiece` is the piece of a message
at an index: `splitAt_cut` is the range `fzn_split_at` gives it, `sum_cutPiece` counts
its bytes and `take_eq_of_pieces` puts the message together again from the ranges.

The divisions keep every product below `total`, so nothing here wraps and sizes are
plain numbers.
-/

import Fuzznet.Chunk.Reassembly
import Mathlib.Algebra.BigOperators.Group.List.Basic
import Mathlib.Algebra.GroupWithZero.Nat
import Mathlib.Data.List.Range

namespace Fuzznet
namespace Chunk

open Wire

/-- `FZN_SPLIT_MAX_PAYLOAD`. -/
def maxSplitPayload : ℕ := 1024

/-- `fzn_split_err_t`. -/
inductive SplitErr
  | malformed
  | tooLarge
  | payloadTooLarge
  deriving DecidableEq, Repr

/-- `fzn_split_t`. -/
structure Split where
  total : ℕ
  chunks : ℕ
  chunkSize : ℕ
  bufferNeeded : ℕ
  deriving DecidableEq, Repr

/-- The number of pieces: a ceiling division written so that it cannot overflow. -/
def pieceCount (total maxPayload : ℕ) : ℕ :=
  if total % maxPayload ≠ 0 then total / maxPayload + 1 else total / maxPayload

/-- The stride: a single piece has its own length. -/
def stride (total maxPayload : ℕ) : ℕ :=
  if pieceCount total maxPayload = 1 then total else maxPayload

/-- `fzn_split_plan`. -/
def splitPlan (total maxPayload : ℕ) : Except SplitErr Split :=
  if maxPayload = 0 then .error .malformed
  else if maxPayload > maxSplitPayload then .error .payloadTooLarge
  else if total = 0 then .error .malformed
  else if pieceCount total maxPayload > maxChunks then .error .tooLarge
  else .ok ⟨total, pieceCount total maxPayload, stride total maxPayload,
    stride total maxPayload * pieceCount total maxPayload⟩

/-- `fzn_split_at`: the offset and the length of a piece. -/
def splitAt (plan : Split) (index : ℕ) : Except SplitErr (ℕ × ℕ) :=
  if plan.chunks = 0 ∨ plan.chunkSize = 0 then .error .malformed
  else if index ≥ plan.chunks then .error .malformed
  else if plan.chunkSize > plan.total then .error .malformed
  else if index > (plan.total - 1) / plan.chunkSize then .error .malformed
  else if plan.chunks ≠ (plan.total - 1) / plan.chunkSize + 1 then .error .malformed
  else .ok (index * plan.chunkSize,
    if index + 1 = plan.chunks then plan.total - index * plan.chunkSize else plan.chunkSize)

/-! ## What a plan is -/

/-- The plan of a message of `total` bytes: a stride, and as many pieces as it takes. -/
structure Cut (plan : Split) (total : ℕ) : Prop where
  total_eq : plan.total = total
  total_pos : 0 < total
  stride_pos : 0 < plan.chunkSize
  stride_le : plan.chunkSize ≤ total
  pos : 0 < plan.chunks
  chunks_le : plan.chunks ≤ maxChunks
  lt_total : (plan.chunks - 1) * plan.chunkSize < total
  total_le : total ≤ plan.chunks * plan.chunkSize
  needed : plan.bufferNeeded = plan.chunkSize * plan.chunks

theorem pieceCount_spec {total maxPayload : ℕ} (hmax : 0 < maxPayload) (htotal : 0 < total) :
    0 < pieceCount total maxPayload ∧ (pieceCount total maxPayload - 1) * maxPayload < total ∧
      total ≤ pieceCount total maxPayload * maxPayload := by
  have hdiv := Nat.div_add_mod total maxPayload
  have hmod := Nat.mod_lt total hmax
  rw [Nat.mul_comm] at hdiv
  unfold pieceCount
  by_cases hrest : total % maxPayload ≠ 0
  · rw [if_pos hrest, Nat.add_sub_cancel, Nat.add_mul, Nat.one_mul]
    refine ⟨Nat.succ_pos _, ?_, ?_⟩ <;> omega
  · rw [if_neg hrest]
    have hpos : 0 < total / maxPayload := by
      rcases Nat.eq_zero_or_pos (total / maxPayload) with hz | hp
      · rw [hz, Nat.zero_mul] at hdiv
        omega
      · exact hp
    obtain ⟨n, hn⟩ : ∃ n, total / maxPayload = n + 1 := ⟨total / maxPayload - 1, by omega⟩
    rw [hn] at hdiv ⊢
    rw [Nat.add_mul, Nat.one_mul] at hdiv
    refine ⟨by omega, ?_, ?_⟩
    · rw [Nat.add_sub_cancel]
      omega
    · rw [Nat.add_mul, Nat.one_mul]
      omega

variable {plan : Split}

/-- **An accepted plan is a cut of its message.** -/
theorem splitPlan_cut {total maxPayload : ℕ} (h : splitPlan total maxPayload = .ok plan) :
    Cut plan total := by
  unfold splitPlan at h
  split_ifs at h with hmax hlarge htotal hcount
  obtain rfl := Except.ok.inj h
  obtain ⟨hpos, hlt, hle⟩ := pieceCount_spec (Nat.pos_of_ne_zero hmax) (Nat.pos_of_ne_zero htotal)
  have hcases : pieceCount total maxPayload = 1 ∧ stride total maxPayload = total ∨
      1 < pieceCount total maxPayload ∧ stride total maxPayload = maxPayload := by
    unfold stride
    by_cases hone : pieceCount total maxPayload = 1
    · exact Or.inl ⟨hone, if_pos hone⟩
    · exact Or.inr ⟨by omega, if_neg hone⟩
  refine ⟨rfl, by omega, ?_, ?_, hpos, Nat.not_lt.1 hcount, ?_, ?_, rfl⟩ <;>
    rcases hcases with ⟨hone, hs⟩ | ⟨hmany, hs⟩ <;> simp only [hs]
  · omega
  · omega
  · omega
  · -- more than one piece: the first is a whole stride
    have hfirst : 1 * maxPayload ≤ (pieceCount total maxPayload - 1) * maxPayload :=
      Nat.mul_le_mul_right _ (by omega)
    omega
  · rw [hone]
    omega
  · exact hlt
  · rw [hone]
    omega
  · exact hle

/-- The bytes of piece `index`. -/
def cutLen (plan : Split) (index : ℕ) : ℕ :=
  if index + 1 = plan.chunks then plan.total - index * plan.chunkSize else plan.chunkSize

/-- Piece `index` of a message. -/
def cutPiece (plan : Split) (message : Bytes) (index : ℕ) : Bytes :=
  Lib.load message (index * plan.chunkSize) (cutLen plan index)

/-- **`fzn_split_at` answers every index of an accepted plan**, and no other. -/
theorem splitAt_cut {total : ℕ} (h : Cut plan total) (index : ℕ) :
    splitAt plan index =
      if index < plan.chunks then .ok (index * plan.chunkSize, cutLen plan index)
      else .error .malformed := by
  have hpos := h.pos
  have hstride := h.stride_pos
  have hquot : (plan.total - 1) / plan.chunkSize = plan.chunks - 1 := by
    have hle := h.total_le
    have hlt := h.lt_total
    obtain ⟨n, hn⟩ : ∃ n, plan.chunks = n + 1 := ⟨plan.chunks - 1, by omega⟩
    rw [hn, Nat.add_sub_cancel] at hlt
    rw [hn, Nat.add_mul, Nat.one_mul] at hle
    rw [h.total_eq, hn, Nat.add_sub_cancel]
    refine (Nat.div_eq_iff hstride).2 ⟨?_, ?_⟩ <;> omega
  unfold splitAt
  rw [if_neg (by omega)]
  by_cases hindex : index < plan.chunks
  · have hle := h.stride_le
    have htotal := h.total_eq
    rw [if_neg (by omega), if_neg (by omega), hquot, if_neg (by omega), if_neg (by omega),
      if_pos hindex]
    rfl
  · rw [if_pos (by omega), if_neg hindex]

/-- A piece lies in the message; the last one is not longer than the others. -/
theorem Cut.cutLen_spec {total : ℕ} (h : Cut plan total) {index : ℕ}
    (hindex : index < plan.chunks) :
    0 < cutLen plan index ∧ cutLen plan index ≤ plan.chunkSize ∧
      index * plan.chunkSize + cutLen plan index ≤ total ∧
      (index + 1 ≠ plan.chunks → cutLen plan index = plan.chunkSize) := by
  have hlt := h.lt_total
  have hle := h.total_le
  have htotal := h.total_eq
  have hstride := h.stride_pos
  unfold cutLen
  by_cases hlast : index + 1 = plan.chunks
  · rw [if_pos hlast]
    rw [← hlast, Nat.add_sub_cancel] at hlt
    rw [← hlast, Nat.add_mul, Nat.one_mul] at hle
    refine ⟨?_, ?_, ?_, fun hno => absurd hlast hno⟩ <;> omega
  · rw [if_neg hlast]
    have hnext : (index + 1) * plan.chunkSize ≤ (plan.chunks - 1) * plan.chunkSize :=
      Nat.mul_le_mul_right _ (by omega)
    rw [Nat.add_mul, Nat.one_mul] at hnext
    refine ⟨?_, ?_, ?_, fun _ => rfl⟩ <;> omega

theorem Cut.length_cutPiece {message : Bytes} (h : Cut plan message.length) {index : ℕ}
    (hindex : index < plan.chunks) : (cutPiece plan message index).length = cutLen plan index :=
  Lib.length_load (h.cutLen_spec hindex).2.2.1

/-- **The pieces of a plan add up to the message.** -/
theorem Cut.sum_cutLen {total : ℕ} (h : Cut plan total) :
    ((List.range plan.chunks).map (cutLen plan)).sum = total := by
  have hpos := h.pos
  have hlt := h.lt_total
  obtain ⟨n, hn⟩ : ∃ n, plan.chunks = n + 1 := ⟨plan.chunks - 1, by omega⟩
  have hfull : (List.range n).map (cutLen plan) = (List.range n).map fun _ => plan.chunkSize := by
    refine List.map_congr_left fun index hindex => ?_
    have hi := List.mem_range.1 hindex
    exact (h.cutLen_spec (by omega)).2.2.2 (by omega)
  have hlast : cutLen plan n = total - n * plan.chunkSize := by
    rw [cutLen, if_pos hn.symm, h.total_eq]
  rw [hn, Nat.add_sub_cancel] at hlt
  rw [hn, List.range_succ, List.map_append, List.sum_append_nat, hfull, List.map_const',
    List.length_range, List.sum_replicate_nat, List.map_singleton, List.sum_cons, List.sum_nil,
    hlast]
  omega

/-- **A buffer that has every piece at its place starts with the message.** -/
theorem Cut.take_eq {message buf : Bytes} (h : Cut plan message.length)
    (hpieces : ∀ index < plan.chunks,
      Lib.load buf (index * plan.chunkSize) (cutLen plan index) = cutPiece plan message index) :
    buf.take message.length = message := by
  have hstride := h.stride_pos
  refine List.ext_getElem? fun j => ?_
  by_cases hj : j < message.length
  · -- byte `j` is byte `j % chunk_size` of piece `j / chunk_size`
    have hdiv := Nat.div_add_mod j plan.chunkSize
    have hmod := Nat.mod_lt j hstride
    rw [Nat.mul_comm] at hdiv
    have hindex : j / plan.chunkSize < plan.chunks := by
      refine (Nat.div_lt_iff_lt_mul hstride).2 ?_
      exact Nat.lt_of_lt_of_le hj h.total_le
    have hr : j % plan.chunkSize < cutLen plan (j / plan.chunkSize) := by
      unfold cutLen
      split
      · rw [h.total_eq]
        omega
      · exact hmod
    have hpiece := congrArg (fun l => l[j % plan.chunkSize]?) (hpieces _ hindex)
    simp only [cutPiece] at hpiece
    rw [Lib.getElem?_load hr, Lib.getElem?_load hr, hdiv] at hpiece
    rw [List.getElem?_take_of_lt hj, hpiece]
  · rw [List.getElem?_take_eq_none (by omega), List.getElem?_eq_none (by omega)]

end Chunk
end Fuzznet
