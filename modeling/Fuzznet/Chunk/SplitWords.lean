/-
# The cut in machine words

`chunk/split.c` with its own types: sizes are words of 64 bits and counts of 16, and any sum
or product may wrap.  `fzn_split_at` is given a plan it did not make, so its fields are any
words at all.  Its guards are met only where nothing wraps: on words it answers what
`splitAt` answers on their numbers (`splitAtWords_eq`), and a plan made is the plan of the
numbers (`splitPlanWords_eq`).
-/

import Fuzznet.Chunk.Split

namespace Fuzznet
namespace Chunk

/-- `fzn_split_t`, as it is passed. -/
structure SplitWords where
  total : UInt64
  chunkSize : UInt64
  chunks : UInt16
  bufferNeeded : UInt64
  deriving DecidableEq, Repr

/-- The numbers of a plan. -/
def SplitWords.split (plan : SplitWords) : Split :=
  ⟨plan.total.toNat, plan.chunks.toNat, plan.chunkSize.toNat, plan.bufferNeeded.toNat⟩

/-- `fzn_split_plan`. -/
def splitPlanWords (total maxPayload : UInt64) : Except SplitErr SplitWords :=
  if maxPayload = 0 then .error .malformed
  else if maxPayload > 1024 then .error .payloadTooLarge
  else if total = 0 then .error .malformed
  else
    let count := if total % maxPayload ≠ 0 then total / maxPayload + 1 else total / maxPayload
    if count > 256 then .error .tooLarge
    else
      let size := if count = 1 then total else maxPayload
      .ok ⟨total, size, count.toUInt16, size * count⟩

/-- `fzn_split_at`. -/
def splitAtWords (plan : SplitWords) (index : UInt16) : Except SplitErr (UInt64 × UInt64) :=
  if plan.chunks = 0 ∨ plan.chunkSize = 0 then .error .malformed
  else if index ≥ plan.chunks then .error .malformed
  else if plan.chunkSize > plan.total then .error .malformed
  else if index.toUInt64 > (plan.total - 1) / plan.chunkSize then .error .malformed
  else if plan.chunks.toUInt64 ≠ (plan.total - 1) / plan.chunkSize + 1 then .error .malformed
  else
    let start := index.toUInt64 * plan.chunkSize
    .ok (start,
      if index.toUInt32 + 1 = plan.chunks.toUInt32 then plan.total - start else plan.chunkSize)

/-! ## The words and the numbers -/

/-- The numbers of a range. -/
def rangeNat (r : UInt64 × UInt64) : ℕ × ℕ := (r.1.toNat, r.2.toNat)

/-- **On words, what the numbers say.** -/
theorem splitAtWords_eq (plan : SplitWords) (index : UInt16) :
    splitAt plan.split index.toNat = (splitAtWords plan index).map rangeNat := by
  unfold splitAt splitAtWords SplitWords.split
  have hzero : (plan.chunks.toNat = 0 ∨ plan.chunkSize.toNat = 0) ↔
      (plan.chunks = 0 ∨ plan.chunkSize = 0) := by
    rw [← UInt16.toNat_inj, ← UInt64.toNat_inj]
    rfl
  by_cases h₀ : plan.chunks = 0 ∨ plan.chunkSize = 0
  · rw [if_pos (hzero.2 h₀), if_pos h₀]
    rfl
  rw [if_neg (mt hzero.1 h₀), if_neg h₀]
  have hsize : 0 < plan.chunkSize.toNat := Nat.pos_of_ne_zero fun h => h₀ (hzero.1 (.inr h))
  by_cases h₁ : index ≥ plan.chunks
  · rw [if_pos (UInt16.le_iff_toNat_le.1 h₁), if_pos h₁]
    rfl
  rw [if_neg (mt UInt16.le_iff_toNat_le.2 h₁), if_neg h₁]
  by_cases h₂ : plan.chunkSize > plan.total
  · rw [if_pos (UInt64.lt_iff_toNat_lt.1 h₂), if_pos h₂]
    rfl
  rw [if_neg (mt UInt64.lt_iff_toNat_lt.2 h₂), if_neg h₂]
  have hle : plan.chunkSize.toNat ≤ plan.total.toNat :=
    Nat.le_of_not_lt (mt UInt64.lt_iff_toNat_lt.2 h₂)
  have hlt := plan.total.toNat_lt
  -- the last index whose piece starts inside the message
  have hlast : ((plan.total - 1) / plan.chunkSize).toNat =
      (plan.total.toNat - 1) / plan.chunkSize.toNat := by
    rw [UInt64.toNat_div, UInt64.toNat_sub_of_le]
    · rfl
    · rw [UInt64.le_iff_toNat_le]
      exact Nat.le_trans hsize hle
  have hindex : index.toUInt64.toNat = index.toNat := UInt16.toNat_toUInt64 index
  by_cases h₃ : index.toUInt64 > (plan.total - 1) / plan.chunkSize
  · have h₃' := UInt64.lt_iff_toNat_lt.1 h₃
    rw [hlast, hindex] at h₃'
    rw [if_pos h₃', if_pos h₃]
    rfl
  have h₃' : index.toNat ≤ (plan.total.toNat - 1) / plan.chunkSize.toNat := by
    rw [← hlast, ← hindex]
    exact Nat.le_of_not_lt (mt UInt64.lt_iff_toNat_lt.2 h₃)
  rw [if_neg (Nat.not_lt.2 h₃'), if_neg h₃]
  have hdiv := Nat.div_le_self (plan.total.toNat - 1) plan.chunkSize.toNat
  have hcount : ((plan.total - 1) / plan.chunkSize + 1).toNat =
      (plan.total.toNat - 1) / plan.chunkSize.toNat + 1 := by
    rw [UInt64.toNat_add, hlast, UInt64.toNat_one, Nat.mod_eq_of_lt (by omega)]
  have hchunks : plan.chunks.toNat ≠ (plan.total.toNat - 1) / plan.chunkSize.toNat + 1 ↔
      plan.chunks.toUInt64 ≠ (plan.total - 1) / plan.chunkSize + 1 := by
    rw [← hcount, ← UInt16.toNat_toUInt64 plan.chunks, ne_eq, ne_eq, UInt64.toNat_inj]
  by_cases h₄ : plan.chunks.toUInt64 ≠ (plan.total - 1) / plan.chunkSize + 1
  · rw [if_pos (hchunks.2 h₄), if_pos h₄]
    rfl
  rw [if_neg (mt hchunks.1 h₄), if_neg h₄]
  -- so the product is below the total
  have hprod : index.toNat * plan.chunkSize.toNat ≤ plan.total.toNat - 1 :=
    (Nat.le_div_iff_mul_le hsize).1 h₃'
  have hstart : (index.toUInt64 * plan.chunkSize).toNat = index.toNat * plan.chunkSize.toNat := by
    rw [UInt64.toNat_mul, hindex, Nat.mod_eq_of_lt (by omega)]
  have hfinal : index.toNat + 1 = plan.chunks.toNat ↔
      index.toUInt32 + 1 = plan.chunks.toUInt32 := by
    have hlt16 := index.toNat_lt
    rw [← UInt32.toNat_inj, UInt32.toNat_add, UInt16.toNat_toUInt32, UInt16.toNat_toUInt32,
      UInt32.toNat_one, Nat.mod_eq_of_lt (by omega)]
  have hlen : (plan.total - index.toUInt64 * plan.chunkSize).toNat =
      plan.total.toNat - index.toNat * plan.chunkSize.toNat := by
    rw [UInt64.toNat_sub_of_le _ _ (UInt64.le_iff_toNat_le.2 (by rw [hstart]; omega)), hstart]
  show Except.ok _ = Except.ok _
  rw [rangeNat, hstart]
  by_cases hend : index.toNat + 1 = plan.chunks.toNat
  · rw [if_pos hend, if_pos (hfinal.1 hend), hlen]
  · rw [if_neg hend, if_neg (mt hfinal.2 hend)]

/-- **A plan made is the plan of the numbers.** -/
theorem splitPlanWords_eq (total maxPayload : UInt64) :
    splitPlan total.toNat maxPayload.toNat =
      (splitPlanWords total maxPayload).map SplitWords.split := by
  unfold splitPlan splitPlanWords
  by_cases h₀ : maxPayload = 0
  · rw [if_pos (by rw [h₀]; rfl), if_pos h₀]
    rfl
  have hmax : maxPayload.toNat ≠ 0 := fun h => h₀ (UInt64.toNat_inj.1 h)
  rw [if_neg hmax, if_neg h₀]
  have hlarge : maxPayload > 1024 ↔ maxPayload.toNat > maxSplitPayload := UInt64.lt_iff_toNat_lt
  by_cases h₁ : maxPayload > 1024
  · rw [if_pos (hlarge.1 h₁), if_pos h₁]
    rfl
  have hle : maxPayload.toNat ≤ 1024 := Nat.le_of_not_lt (mt hlarge.2 h₁)
  rw [if_neg (mt hlarge.2 h₁), if_neg h₁]
  by_cases h₂ : total = 0
  · rw [if_pos (by rw [h₂]; rfl), if_pos h₂]
    rfl
  have htotal : total.toNat ≠ 0 := fun h => h₂ (UInt64.toNat_inj.1 h)
  rw [if_neg htotal, if_neg h₂]
  have hlt := total.toNat_lt
  have hmod : total % maxPayload ≠ 0 ↔ total.toNat % maxPayload.toNat ≠ 0 := by
    rw [ne_eq, ne_eq, ← UInt64.toNat_inj, UInt64.toNat_mod]
    rfl
  set count := if total % maxPayload ≠ 0 then total / maxPayload + 1 else total / maxPayload
    with hcountDef
  have hcount : count.toNat = pieceCount total.toNat maxPayload.toNat := by
    rw [hcountDef, pieceCount]
    by_cases hrest : total % maxPayload ≠ 0
    · have hbelow : total.toNat / maxPayload.toNat < total.toNat ∨ maxPayload.toNat = 1 := by
        rcases Nat.lt_or_ge 1 maxPayload.toNat with hone | hone
        · exact .inl (Nat.div_lt_self (Nat.pos_of_ne_zero htotal) hone)
        · exact .inr (by omega)
      have hrest' := hmod.1 hrest
      rw [if_pos hrest, if_pos hrest', UInt64.toNat_add, UInt64.toNat_div, UInt64.toNat_one]
      rcases hbelow with hbelow | hone
      · exact Nat.mod_eq_of_lt (by omega)
      · rw [hone, Nat.mod_one] at hrest'
        exact absurd rfl hrest'
    · rw [if_neg hrest, if_neg (mt hmod.2 hrest), UInt64.toNat_div]
  have hmany : count > 256 ↔ pieceCount total.toNat maxPayload.toNat > maxChunks := by
    rw [← hcount]
    exact UInt64.lt_iff_toNat_lt
  by_cases h₃ : count > 256
  · rw [if_pos (hmany.1 h₃), if_pos h₃]
    rfl
  have hfew : pieceCount total.toNat maxPayload.toNat ≤ 256 := Nat.le_of_not_lt (mt hmany.2 h₃)
  rw [if_neg (mt hmany.2 h₃), if_neg h₃]
  have hone : count = 1 ↔ pieceCount total.toNat maxPayload.toNat = 1 := by
    rw [← hcount, ← UInt64.toNat_inj]
    rfl
  have hsize : (if count = 1 then total else maxPayload).toNat =
      stride total.toNat maxPayload.toNat := by
    unfold stride
    by_cases hc : count = 1
    · rw [if_pos hc, if_pos (hone.1 hc)]
    · rw [if_neg hc, if_neg (mt hone.2 hc)]
  have hbuffer : ((if count = 1 then total else maxPayload) * count).toNat =
      stride total.toNat maxPayload.toNat * pieceCount total.toNat maxPayload.toNat := by
    rw [UInt64.toNat_mul, hsize, hcount]
    refine Nat.mod_eq_of_lt ?_
    unfold stride
    by_cases hc : pieceCount total.toNat maxPayload.toNat = 1
    · rw [if_pos hc, hc]
      omega
    · rw [if_neg hc]
      calc maxPayload.toNat * pieceCount total.toNat maxPayload.toNat
          ≤ 1024 * 256 := Nat.mul_le_mul hle hfew
        _ < 2 ^ 64 := by decide
  show Except.ok _ = Except.ok _
  rw [SplitWords.split, hsize, hbuffer, UInt64.toNat_toUInt16, hcount,
    Nat.mod_eq_of_lt (by omega)]

/-! ## What is answered -/

/-- What `fzn_split_at` answers lies in the message. -/
theorem splitAt_within {plan : Split} {index off len : ℕ} (h : splitAt plan index = .ok (off, len)) :
    off + len ≤ plan.total ∧ 1 ≤ len := by
  unfold splitAt at h
  split_ifs at h with hzero hindex hlarge hstart hcount hend <;>
    obtain ⟨rfl, rfl⟩ := Prod.mk.inj (Except.ok.inj h)
  · have hpos : 0 < plan.chunkSize := by omega
    have hprod := (Nat.le_div_iff_mul_le hpos).1 (Nat.not_lt.1 hstart)
    omega
  · have hpos : 0 < plan.chunkSize := by omega
    have hnext : index + 1 ≤ (plan.total - 1) / plan.chunkSize := by omega
    have hprod := (Nat.le_div_iff_mul_le hpos).1 hnext
    rw [Nat.add_mul, Nat.one_mul] at hprod
    omega

/-- Ranges that lie one behind the other from 0 to `total`, none empty and none longer than
`most`. -/
structure Tiles (range : ℕ → ℕ × ℕ) (chunks total most : ℕ) : Prop where
  pos : 0 < chunks
  first : (range 0).1 = 0
  next : ∀ i, i + 1 < chunks → (range i).1 + (range i).2 = (range (i + 1)).1
  last : (range (chunks - 1)).1 + (range (chunks - 1)).2 = total
  len : ∀ i < chunks, 1 ≤ (range i).2 ∧ (range i).2 ≤ most
  cover : ∀ b < total, ∃! i, i < chunks ∧ (range i).1 ≤ b ∧ b < (range i).1 + (range i).2

/-- The last piece ends where the message does. -/
theorem Cut.last_end {plan : Split} {total : ℕ} (h : Cut plan total) :
    (plan.chunks - 1) * plan.chunkSize + cutLen plan (plan.chunks - 1) = total := by
  have hpos := h.pos
  have hlt := h.lt_total
  rw [cutLen, if_pos (by omega), h.total_eq]
  omega

/-- **The pieces of a plan tile the message.** -/
theorem Cut.tiles {plan : Split} {total : ℕ} (h : Cut plan total) :
    Tiles (fun i => (i * plan.chunkSize, cutLen plan i)) plan.chunks total plan.chunkSize := by
  have hstride := h.stride_pos
  refine ⟨h.pos, Nat.zero_mul _, fun i hi => ?_, h.last_end, fun i hi => ?_, fun b hb => ?_⟩
  · show i * plan.chunkSize + cutLen plan i = (i + 1) * plan.chunkSize
    rw [cutLen, if_neg (by omega), Nat.add_mul, Nat.one_mul]
  · exact ⟨(h.cutLen_spec hi).1, (h.cutLen_spec hi).2.1⟩
  · refine ⟨b / plan.chunkSize, ⟨?_, ?_, ?_⟩, ?_⟩
    · exact (Nat.div_lt_iff_lt_mul hstride).2 (Nat.lt_of_lt_of_le hb h.total_le)
    · exact Nat.div_mul_le_self b plan.chunkSize
    · -- a piece that is not the last is a whole stride
      show b < b / plan.chunkSize * plan.chunkSize + cutLen plan (b / plan.chunkSize)
      by_cases hend : b / plan.chunkSize + 1 = plan.chunks
      · have hpiece := h.last_end
        rw [← hend, Nat.add_sub_cancel] at hpiece
        rw [hpiece]
        exact hb
      · rw [cutLen, if_neg hend]
        exact Nat.lt_div_mul_add hstride
    · rintro i ⟨hi, hle, hlt⟩
      have hle' : i * plan.chunkSize ≤ b := hle
      have hlt' : b < i * plan.chunkSize + cutLen plan i := hlt
      have hlen := (h.cutLen_spec hi).2.1
      exact (Nat.div_eq_of_lt_le hle' (by rw [Nat.add_mul, Nat.one_mul]; omega)).symm

/-- A stride is at most what a piece may carry. -/
theorem splitPlan_chunkSize {total maxPayload : ℕ} {plan : Split}
    (h : splitPlan total maxPayload = .ok plan) : plan.chunkSize ≤ maxPayload := by
  unfold splitPlan at h
  split_ifs at h with hmax hlarge htotal hcount
  obtain rfl := Except.ok.inj h
  have hle := (pieceCount_spec (Nat.pos_of_ne_zero hmax) (Nat.pos_of_ne_zero htotal)).2.2
  show stride total maxPayload ≤ maxPayload
  unfold stride
  split_ifs with hone
  · rwa [hone, Nat.one_mul] at hle
  · exact le_rfl

theorem Tiles.mono {range : ℕ → ℕ × ℕ} {chunks total most most' : ℕ}
    (h : Tiles range chunks total most) (hle : most ≤ most') : Tiles range chunks total most' :=
  ⟨h.pos, h.first, h.next, h.last, fun i hi => ⟨(h.len i hi).1, (h.len i hi).2.trans hle⟩, h.cover⟩

/-- **No plan makes `fzn_split_at` answer a range outside the message**, whatever its fields
are; and the ranges of a plan made tile it. -/
theorem splitAt_no_overread :
    (∀ (plan : SplitWords) (index : UInt16) (off len : UInt64),
      splitAtWords plan index = .ok (off, len) →
        off.toNat + len.toNat ≤ plan.total.toNat ∧ 1 ≤ len.toNat) ∧
    (∀ (total maxPayload : UInt64) (plan : SplitWords),
      splitPlanWords total maxPayload = .ok plan →
        ∃ range : ℕ → ℕ × ℕ,
          (∀ index : UInt16, index < plan.chunks →
            (splitAtWords plan index).map rangeNat = .ok (range index.toNat)) ∧
          Tiles range plan.chunks.toNat total.toNat maxPayload.toNat) := by
  refine ⟨fun plan index off len h => ?_, fun total maxPayload plan h => ?_⟩
  · have hat := splitAtWords_eq plan index
    rw [h] at hat
    exact splitAt_within hat
  · have hplan := splitPlanWords_eq total maxPayload
    rw [h] at hplan
    have hcut := splitPlan_cut hplan
    refine ⟨_, fun index hindex => ?_, hcut.tiles.mono (splitPlan_chunkSize hplan)⟩
    rw [← splitAtWords_eq, splitAt_cut hcut]
    exact if_pos (UInt16.lt_iff_toNat_lt.1 hindex)

end Chunk
end Fuzznet
