/-
# What a slot holds

A slot stores its pieces as bytes of one buffer, a bitmap and two counters.
`SlotHolds slot held` reads it as the list of pieces it was given: each piece stands
at `index * chunk_size`, or, while the stride is unknown, the one piece held is the
last one and stands at the end of the buffer.  The four writes of
`fzn_reasm_accept` (a slot opened, a last piece parked, the stride set, a piece
placed) keep the reading, and `takePiece_cases` puts them together: an accepted
piece is either new and added to the pieces held, or it leaves the slot as it was.
-/

import Fuzznet.Chunk.Reassembly
import Mathlib.Algebra.Group.Action.Defs
import Mathlib.Algebra.Order.BigOperators.Group.List
import Mathlib.Data.List.Nodup
import Mathlib.Data.List.Perm.Subperm
import Mathlib.Tactic.Ring

namespace Fuzznet
namespace Chunk

open Wire

/-- The bits of the bitmap that are set. -/
def bitCount (seen : BitVec 256) : ℕ := (List.range 256).countP fun i => seen.getLsbD i

/-- A piece of the stride, or the shorter last one. -/
structure Fits (slot : Partial) (index : ℕ) (payload : Bytes) : Prop where
  index_lt : index < slot.chunks
  payload_pos : 0 < payload.length
  payload_le : payload.length ≤ slot.chunkSize
  full : index + 1 < slot.chunks → payload.length = slot.chunkSize

/-- Piece `x` stands at its place. -/
structure Placed (slot : Partial) (x : ℕ × Bytes) : Prop where
  fits : Fits slot x.1 x.2
  at_place : Lib.load slot.buf (x.1 * slot.chunkSize) x.2.length = x.2

/-- The stride unknown: nothing held, or the last piece at the end of the buffer. -/
def Waits (slot : Partial) (held : List (ℕ × Bytes)) : Prop :=
  held = [] ∧ slot.parked = 0 ∨
    ∃ p : Bytes, held = [(slot.chunks - 1, p)] ∧ p.length = slot.parked ∧ 0 < slot.parked ∧
      slot.parked * slot.chunks ≤ slot.buf.length ∧
      Lib.load slot.buf (slot.buf.length - slot.parked) slot.parked = p

/-- The slot holds exactly the pieces `held`, in the order they came. -/
structure SlotHolds (slot : Partial) (held : List (ℕ × Bytes)) : Prop where
  size : slot.buf.length < sizeMod
  pos : 0 < slot.chunks
  chunks_le : slot.chunks ≤ maxChunks
  nodup : (held.map Prod.fst).Nodup
  index_lt : ∀ x ∈ held, x.1 < slot.chunks
  seen_iff : ∀ i, seenGet slot i = true ↔ i ∈ held.map Prod.fst
  arrived : slot.arrived = held.length
  bytes : slot.bytes = (held.map fun x => x.2.length).sum
  stride_le : slot.chunkSize * slot.chunks ≤ slot.buf.length
  waits : slot.chunkSize = 0 → 1 < slot.chunks ∧ Waits slot held
  placed : slot.chunkSize ≠ 0 → ∀ x ∈ held, Placed slot x

/-! ## The bitmap and the counters -/

theorem getLsbD_seenSet {seen : BitVec 256} {index i : ℕ} (hindex : index < 256) :
    (seenSet seen index).getLsbD i = true ↔ i = index ∨ seen.getLsbD i = true := by
  rw [seenSet, BitVec.getLsbD_or, BitVec.getLsbD_twoPow]
  simp only [Bool.or_eq_true, Bool.and_eq_true, decide_eq_true_eq]
  constructor
  · rintro (h | ⟨_, rfl⟩)
    · exact Or.inr h
    · exact Or.inl rfl
  · rintro (rfl | h)
    · exact Or.inr ⟨hindex, rfl⟩
    · exact Or.inl h

variable {slot : Partial} {held : List (ℕ × Bytes)} {index : ℕ} {payload : Bytes}

section

variable (h : SlotHolds slot held)
include h

/-- **The bits set are the pieces held, counted.** -/
theorem SlotHolds.bitCount_seen : bitCount slot.seen = slot.arrived := by
  have hperm : ((List.range 256).filter fun i => slot.seen.getLsbD i).Perm (held.map Prod.fst) := by
    rw [List.perm_ext_iff_of_nodup (List.nodup_range.filter _) h.nodup]
    intro i
    rw [List.mem_filter, List.mem_range]
    refine ⟨fun hi => (h.seen_iff i).1 hi.2, fun hi => ⟨?_, (h.seen_iff i).2 hi⟩⟩
    obtain ⟨x, hx, rfl⟩ := List.mem_map.1 hi
    have hlt := h.index_lt x hx
    have hle : slot.chunks ≤ 256 := h.chunks_le
    omega
  rw [bitCount, List.countP_eq_length_filter, hperm.length_eq, List.length_map, h.arrived]

/-- The indices held are among the first `chunks`. -/
theorem SlotHolds.subset_range : held.map Prod.fst ⊆ List.range slot.chunks := by
  intro i hi
  obtain ⟨x, hx, rfl⟩ := List.mem_map.1 hi
  exact List.mem_range.2 (h.index_lt x hx)

theorem SlotHolds.length_le : held.length ≤ slot.chunks := by
  have hsub := (List.subperm_of_subset h.nodup h.subset_range).length_le
  rwa [List.length_map, List.length_range] at hsub

/-- A slot that holds as many pieces as it has indices holds every index. -/
theorem SlotHolds.seen_of_complete (hall : slot.arrived = slot.chunks) {i : ℕ}
    (hi : i < slot.chunks) : seenGet slot i = true := by
  have hsub := List.subperm_of_subset h.nodup h.subset_range
  have hlen : (List.range slot.chunks).length ≤ (held.map Prod.fst).length := by
    rw [List.length_range, List.length_map, ← h.arrived, hall]
  exact (h.seen_iff i).2 ((hsub.perm_of_length_le hlen).mem_iff.2 (List.mem_range.2 hi))

/-- The place of a piece does not wrap. -/
theorem SlotHolds.offsetOf_eq {i : ℕ} (hi : i < slot.chunks) :
    offsetOf slot i = i * slot.chunkSize := by
  have hle : i * slot.chunkSize ≤ slot.chunks * slot.chunkSize := Nat.mul_le_mul_right _ hi.le
  have hfit := h.stride_le
  have hsize := h.size
  rw [Nat.mul_comm slot.chunks] at hle
  exact Nat.mod_eq_of_lt (by omega)

/-- **A piece that fits the stride fits the buffer.** -/
theorem SlotHolds.fits_buf (hfits : Fits slot index payload) :
    index * slot.chunkSize + payload.length ≤ slot.buf.length := by
  have hnext : (index + 1) * slot.chunkSize ≤ slot.chunks * slot.chunkSize :=
    Nat.mul_le_mul_right _ hfits.index_lt
  have hle := hfits.payload_le
  have hfit := h.stride_le
  rw [Nat.add_mul, Nat.one_mul, Nat.mul_comm slot.chunks] at hnext
  omega

/-- The bytes of a new piece do not wrap the count. -/
theorem SlotHolds.bytes_add (hstride : slot.chunkSize ≠ 0) (hfits : Fits slot index payload)
    (hnew : index ∉ held.map Prod.fst) :
    (slot.bytes + payload.length) % sizeMod = slot.bytes + payload.length := by
  have hheld : slot.bytes ≤ held.length * slot.chunkSize := by
    rw [h.bytes]
    have hsum := List.sum_le_card_nsmul (held.map fun x => x.2.length) slot.chunkSize
    rw [List.length_map, smul_eq_mul] at hsum
    refine hsum fun n hn => ?_
    obtain ⟨x, hx, rfl⟩ := List.mem_map.1 hn
    exact (h.placed hstride x hx).fits.payload_le
  have hnodup : (index :: held.map Prod.fst).Nodup := List.nodup_cons.2 ⟨hnew, h.nodup⟩
  have hsub : index :: held.map Prod.fst ⊆ List.range slot.chunks :=
    List.cons_subset.2 ⟨List.mem_range.2 hfits.index_lt, h.subset_range⟩
  have hlt := (List.subperm_of_subset hnodup hsub).length_le
  rw [List.length_cons, List.length_map, List.length_range] at hlt
  have hroom : (held.length + 1) * slot.chunkSize ≤ slot.chunks * slot.chunkSize :=
    Nat.mul_le_mul_right _ hlt
  have hfit := h.stride_le
  have hsize := h.size
  have hle := hfits.payload_le
  rw [Nat.add_mul, Nat.one_mul, Nat.mul_comm slot.chunks] at hroom
  exact Nat.mod_eq_of_lt (by omega)

end

/-- The places of two pieces do not meet. -/
theorem disjoint_places {index i : ℕ} {payload p : Bytes}
    (hoff : offsetOf slot index = index * slot.chunkSize) (hp : Fits slot i p)
    (hpayload : Fits slot index payload) (hne : i ≠ index) :
    i * slot.chunkSize + p.length ≤ offsetOf slot index ∨
      offsetOf slot index + payload.length ≤ i * slot.chunkSize := by
  have hle := hp.payload_le
  have hle' := hpayload.payload_le
  rw [hoff]
  rcases Nat.lt_or_gt_of_ne hne with hlt | hgt
  · have hnext : (i + 1) * slot.chunkSize ≤ index * slot.chunkSize := Nat.mul_le_mul_right _ hlt
    rw [Nat.add_mul, Nat.one_mul] at hnext
    exact Or.inl (by omega)
  · have hnext : (index + 1) * slot.chunkSize ≤ i * slot.chunkSize := Nat.mul_le_mul_right _ hgt
    rw [Nat.add_mul, Nat.one_mul] at hnext
    exact Or.inr (by omega)

/-! ## The four writes -/

/-- **A slot just opened holds nothing.** -/
theorem openSlot_holds {table : Reasm} {c : Piece} (hopens : Opens table c slot)
    (hsize : slot.buf.length < sizeMod) (expiresAt : UInt64) :
    SlotHolds (openSlot slot c expiresAt) [] where
  size := hsize
  pos := hopens.pos
  chunks_le := hopens.chunks_le
  nodup := List.nodup_nil
  index_lt := fun x hx => absurd hx List.not_mem_nil
  seen_iff := fun i => by simp [seenGet, openSlot]
  arrived := rfl
  bytes := rfl
  stride_le := by
    show firstStride c * c.chunks ≤ slot.buf.length
    have hle := Nat.mul_le_of_le_div _ _ _ hopens.payload_le
    unfold firstStride
    split
    · omega
    · exact hle
  waits := by
    intro hstride
    have hpos := hopens.payload_pos
    have hlast : c.chunks > 1 ∧ c.index + 1 = c.chunks := by
      by_contra hno
      have hfirst : firstStride c = c.payload.length := if_neg hno
      have hzero : firstStride c = 0 := hstride
      omega
    exact ⟨hlast.1, Or.inl ⟨rfl, rfl⟩⟩
  placed := fun _ x hx => absurd hx List.not_mem_nil

/-- **The last piece, coming first, is parked.** -/
theorem parkPiece_holds (h : SlotHolds slot []) (hstride : slot.chunkSize = 0)
    (hlast : index + 1 = slot.chunks) (hpos : 0 < payload.length)
    (hfit : payload.length * slot.chunks ≤ slot.buf.length) :
    SlotHolds (parkPiece slot index payload) [(index, payload)] := by
  have hchunks : slot.chunks ≤ 256 := h.chunks_le
  have hsize := h.size
  have hle : payload.length ≤ slot.buf.length :=
    Nat.le_trans (Nat.le_mul_of_pos_right _ h.pos) hfit
  have hend : slot.buf.length - payload.length + payload.length ≤ slot.buf.length := by omega
  have hlen : (parkPiece slot index payload).buf.length = slot.buf.length :=
    Lib.length_store hend
  have hbytes : slot.bytes = 0 := h.bytes
  exact
    { size := hlen.trans_lt hsize
      pos := h.pos
      chunks_le := h.chunks_le
      nodup := List.nodup_singleton _
      index_lt := by
        intro x hx
        obtain rfl := List.mem_singleton.1 hx
        show index < slot.chunks
        omega
      seen_iff := by
        intro i
        have hnone : ¬ slot.seen.getLsbD i = true := fun hi =>
          absurd ((h.seen_iff i).1 hi) List.not_mem_nil
        show (seenSet slot.seen index).getLsbD i = true ↔ _
        rw [getLsbD_seenSet (by omega)]
        simp [hnone]
      arrived := by
        show slot.arrived + 1 = 1
        rw [h.arrived, List.length_nil]
      bytes := by
        show (slot.bytes + payload.length) % sizeMod = payload.length + 0
        rw [hbytes]
        exact (Nat.mod_eq_of_lt (by omega)).trans (by omega)
      stride_le := by
        show slot.chunkSize * slot.chunks ≤ _
        rw [hstride, Nat.zero_mul]
        exact Nat.zero_le _
      waits := by
        intro _
        refine ⟨(h.waits hstride).1, Or.inr ⟨payload, ?_, rfl, hpos, ?_, ?_⟩⟩
        · show _ = [(slot.chunks - 1, payload)]
          rw [← hlast, Nat.add_sub_cancel]
        · rw [hlen]
          exact hfit
        · rw [hlen]
          exact Lib.load_store_self hend
      placed := fun hne => absurd hstride hne }

/-- **The stride is set**, and the piece parked is moved to its place. -/
theorem setStride_holds (h : SlotHolds slot held) (hstride : slot.chunkSize = 0) {stride : ℕ}
    (hpos : 0 < stride) (hparked : slot.parked ≤ stride)
    (hfit : stride * slot.chunks ≤ slot.buf.length) :
    SlotHolds (setStride slot stride) held ∧
      (setStride slot stride).buf.length = slot.buf.length := by
  have hsize := h.size
  have hchunks := h.pos
  have hlast : (slot.chunks - 1) * stride + stride = stride * slot.chunks := by
    rw [← Nat.succ_mul, Nat.mul_comm, Nat.succ_eq_add_one, Nat.sub_add_cancel hchunks]
  have hplace : (slot.chunks - 1) * stride % sizeMod = (slot.chunks - 1) * stride :=
    Nat.mod_eq_of_lt (by omega)
  have hload : (Lib.load slot.buf (slot.buf.length - slot.parked) slot.parked).length
      = slot.parked := Lib.length_load (by omega)
  have hroom : (slot.chunks - 1) * stride % sizeMod +
      (Lib.load slot.buf (slot.buf.length - slot.parked) slot.parked).length ≤ slot.buf.length := by
    rw [hload, hplace]
    omega
  have hlen : (setStride slot stride).buf.length = slot.buf.length := Lib.length_store hroom
  refine ⟨?_, hlen⟩
  exact
    { size := hlen.trans_lt hsize
      pos := h.pos
      chunks_le := h.chunks_le
      nodup := h.nodup
      index_lt := h.index_lt
      seen_iff := h.seen_iff
      arrived := h.arrived
      bytes := h.bytes
      stride_le := by
        rw [hlen]
        exact hfit
      waits := fun hzero => absurd hzero hpos.ne'
      placed := by
        intro _ x hx
        obtain ⟨hmany, hnone | ⟨p, rfl, hplen, hppos, _, hp⟩⟩ := h.waits hstride
        · rw [hnone.1] at hx
          exact absurd hx List.not_mem_nil
        · obtain rfl := List.mem_singleton.1 hx
          refine ⟨⟨?_, ?_, ?_, ?_⟩, ?_⟩
          · show slot.chunks - 1 < slot.chunks
            omega
          · show 0 < p.length
            omega
          · show p.length ≤ stride
            omega
          · intro hlt
            have hlt : slot.chunks - 1 + 1 < slot.chunks := hlt
            omega
          · have hself := Lib.load_store_self hroom
            rw [hp, hplace] at hself
            show Lib.load (Lib.store slot.buf ((slot.chunks - 1) * stride % sizeMod)
              (Lib.load slot.buf (slot.buf.length - slot.parked) slot.parked))
              ((slot.chunks - 1) * stride) p.length = p
            rw [hp, hplace]
            exact hself }

/-- **A new piece is placed**, and the pieces held stay where they are. -/
theorem writePiece_holds (h : SlotHolds slot held) (hstride : slot.chunkSize ≠ 0)
    (hfits : Fits slot index payload) (hnew : index ∉ held.map Prod.fst) :
    SlotHolds (writePiece slot index payload) (held ++ [(index, payload)]) ∧
      (writePiece slot index payload).buf.length = slot.buf.length := by
  have hchunks : slot.chunks ≤ 256 := h.chunks_le
  have hindex := hfits.index_lt
  have hoff := h.offsetOf_eq hindex
  have hroom : offsetOf slot index + payload.length ≤ slot.buf.length := by
    rw [hoff]
    exact h.fits_buf hfits
  have hlen : (writePiece slot index payload).buf.length = slot.buf.length :=
    Lib.length_store hroom
  refine ⟨?_, hlen⟩
  exact
    { size := hlen.trans_lt h.size
      pos := h.pos
      chunks_le := h.chunks_le
      nodup := by
        rw [List.map_append, List.map_singleton, ← List.concat_eq_append]
        exact h.nodup.concat hnew
      index_lt := by
        intro x hx
        rcases List.mem_append.1 hx with hx | hx
        · exact h.index_lt x hx
        · obtain rfl := List.mem_singleton.1 hx
          exact hindex
      seen_iff := by
        intro i
        have hseen := h.seen_iff i
        show (seenSet slot.seen index).getLsbD i = true ↔ _
        rw [getLsbD_seenSet (by omega), List.map_append, List.map_singleton, List.mem_append,
          List.mem_singleton]
        rw [seenGet] at hseen
        rw [hseen]
        exact or_comm
      arrived := by
        show slot.arrived + 1 = _
        rw [h.arrived, List.length_append, List.length_singleton]
      bytes := by
        show (slot.bytes + payload.length) % sizeMod = _
        rw [h.bytes_add hstride hfits hnew, h.bytes, List.map_append, List.sum_append,
          List.map_singleton, List.sum_singleton]
      stride_le := by
        rw [hlen]
        exact h.stride_le
      waits := fun hzero => absurd hzero hstride
      placed := by
        intro _ x hx
        rcases List.mem_append.1 hx with hold | hx
        · obtain ⟨hxfits, hat⟩ := h.placed hstride x hold
          refine ⟨⟨hxfits.index_lt, hxfits.payload_pos, hxfits.payload_le, hxfits.full⟩, ?_⟩
          have hne : x.1 ≠ index := by
            rintro rfl
            exact hnew (List.mem_map_of_mem hold)
          show Lib.load (Lib.store slot.buf (offsetOf slot index) payload) (x.1 * slot.chunkSize)
            x.2.length = x.2
          rw [Lib.load_store_of_disjoint (by omega) (disjoint_places hoff hxfits hfits hne), hat]
        · obtain rfl := List.mem_singleton.1 hx
          refine ⟨⟨hindex, hfits.payload_pos, hfits.payload_le, hfits.full⟩, ?_⟩
          show Lib.load (Lib.store slot.buf (offsetOf slot index) payload)
            (index * slot.chunkSize) payload.length = payload
          rw [← hoff]
          exact Lib.load_store_self hroom }

/-! ## One piece -/

/-- The pieces held, between two calls: a slot is complete when it is handed out. -/
structure Rests (slot : Partial) (held : List (ℕ × Bytes)) : Prop where
  holds : SlotHolds slot held
  handed_iff : slot.handed = true ↔ slot.arrived = slot.chunks

/-- What is known of a piece once it has its slot. -/
structure Offered (slot : Partial) (index : ℕ) (payload : Bytes) : Prop where
  index_lt : index < slot.chunks
  last_pos : index + 1 = slot.chunks → 0 < payload.length
  fits : slot.chunkSize ≠ 0 → Fits slot index payload
  fresh : slot.chunkSize = 0 → slot.parked = 0 →
    index + 1 = slot.chunks ∧ payload.length * slot.chunks ≤ slot.buf.length

/-- What no piece changes of the slot it goes to. -/
structure SameMessage (slot slot' : Partial) : Prop where
  sender : slot'.sender = slot.sender
  msg : slot'.msg = slot.msg
  chunks : slot'.chunks = slot.chunks
  expiresAt : slot'.expiresAt = slot.expiresAt
  live : slot'.live = slot.live
  capacity : slot'.buf.length = slot.buf.length

/-- A piece that opens a slot is one the slot can take. -/
theorem Opens.offered {table : Reasm} {c : Piece} (h : Opens table c slot) (expiresAt : UInt64) :
    Offered (openSlot slot c expiresAt) c.index c.payload := by
  have hpos := h.payload_pos
  have hindex := h.index_lt
  refine ⟨h.index_lt, fun _ => h.payload_pos, fun hstride => ?_, fun hstride _ => ?_⟩
  · have hfirst : firstStride c = c.payload.length := by
      by_contra hno
      have hne : firstStride c ≠ 0 := hstride
      unfold firstStride at hno hne
      split at hno
      case isTrue hlast => exact hne (if_pos hlast)
      case isFalse => exact hno rfl
    refine ⟨h.index_lt, h.payload_pos, ?_, fun _ => hfirst.symm⟩
    show c.payload.length ≤ firstStride c
    omega
  · have hzero : firstStride c = 0 := hstride
    refine ⟨?_, Nat.mul_le_of_le_div _ _ _ h.payload_le⟩
    show c.index + 1 = c.chunks
    unfold firstStride at hzero
    split at hzero
    case isTrue hlast => exact hlast.2
    case isFalse => omega

/-- A later piece that agrees with the slot is one the slot can take. -/
theorem offered_of_agrees {c : Piece} (h : SlotHolds slot held) (hheld : held ≠ [])
    (hagrees : agrees slot c = true) : Offered slot c.index c.payload := by
  have hparked : slot.chunkSize = 0 → slot.parked ≠ 0 := by
    intro hstride
    obtain ⟨-, hnone | ⟨p, -, -, hpos, -, -⟩⟩ := h.waits hstride
    · exact absurd hnone.1 hheld
    · omega
  unfold agrees at hagrees
  by_cases hchunks : slot.chunks ≠ c.chunks
  · rw [if_pos hchunks] at hagrees
    simp at hagrees
  by_cases hindex : c.index ≥ slot.chunks
  · rw [if_neg hchunks, if_pos hindex] at hagrees
    simp at hagrees
  rw [if_neg hchunks, if_neg hindex] at hagrees
  have hlt : c.index < slot.chunks := by omega
  by_cases hlast : c.index + 1 = slot.chunks
  · rw [if_pos hlast] at hagrees
    have hsizes : c.payload.length ≠ 0 ∧
        (slot.chunkSize ≠ 0 → c.payload.length ≤ slot.chunkSize) := by
      simpa [or_iff_not_imp_left] using hagrees
    refine ⟨hlt, fun _ => by omega, fun hstride => ?_, fun hstride hpark => ?_⟩
    · exact ⟨hlt, by omega, hsizes.2 hstride, fun hmore => by omega⟩
    · exact absurd hpark (hparked hstride)
  · rw [if_neg hlast] at hagrees
    have hsize : slot.chunkSize ≠ 0 → c.payload.length = slot.chunkSize := by
      simpa [or_iff_not_imp_left] using hagrees
    refine ⟨hlt, fun hl => absurd hl hlast, fun hstride => ?_, fun hstride hpark => ?_⟩
    · have hlen := hsize hstride
      exact ⟨hlt, by omega, by omega, fun _ => hlen⟩
    · exact absurd hpark (hparked hstride)

/-- **What the bounds check sees**: the pieces held as before, under a stride the new
piece fits. -/
theorem beforeGuard_guard {slot slot' : Partial} (h : SlotHolds slot held)
    (hoff : Offered slot index payload) (hguard : beforeGuard slot index payload = .guard slot') :
    SlotHolds slot' held ∧ slot'.chunkSize ≠ 0 ∧ Fits slot' index payload ∧
      SameMessage slot slot' ∧ slot'.arrived = slot.arrived ∧ slot'.seen = slot.seen ∧
      slot'.handed = slot.handed ∧ (slot.chunkSize = 0 → slot.parked ≤ slot'.chunkSize) ∧
      (slot'.chunkSize = slot.chunkSize ∨
        slot.chunkSize = 0 ∧ index + 1 ≠ slot.chunks ∧ slot'.chunkSize = payload.length) := by
  have hlt := hoff.index_lt
  unfold beforeGuard at hguard
  by_cases hstride : slot.chunkSize = 0
  · rw [if_pos hstride] at hguard
    by_cases hlast : index + 1 = slot.chunks
    · rw [if_pos hlast] at hguard
      split_ifs at hguard
    rw [if_neg hlast] at hguard
    by_cases hshort : payload.length = 0 ∨ payload.length < slot.parked
    · rw [if_pos hshort] at hguard
      simp at hguard
    by_cases hlong : payload.length > slot.buf.length / slot.chunks
    · rw [if_neg hshort, if_pos hlong] at hguard
      simp at hguard
    rw [if_neg hshort, if_neg hlong] at hguard
    obtain rfl := Reached.guard.inj hguard
    have hpos : 0 < payload.length := by omega
    obtain ⟨hholds, hlen⟩ := setStride_holds h hstride hpos (by omega)
      (Nat.mul_le_of_le_div _ _ _ (by omega))
    refine ⟨hholds, ?_, ⟨hlt, by omega, Nat.le_refl _, fun _ => rfl⟩,
      ⟨rfl, rfl, rfl, rfl, rfl, hlen⟩, rfl, rfl, rfl, fun _ => ?_, Or.inr ⟨hstride, hlast, rfl⟩⟩
    · show payload.length ≠ 0
      omega
    · show slot.parked ≤ payload.length
      omega
  · rw [if_neg hstride] at hguard
    obtain rfl := Reached.guard.inj hguard
    exact ⟨h, hstride, hoff.fits hstride, ⟨rfl, rfl, rfl, rfl, rfl, rfl⟩, rfl, rfl, rfl,
      fun hzero => absurd hzero hstride, Or.inl rfl⟩

/-- **The last check before the copy never refuses** a piece that fits. -/
theorem guardTaken_eq_false (h : SlotHolds slot held) (hfits : Fits slot index payload) :
    guardTaken slot index payload = false := by
  have hroom := h.fits_buf hfits
  unfold guardTaken
  rw [h.offsetOf_eq hfits.index_lt, Bool.or_eq_false_iff, decide_eq_false_iff_not,
    decide_eq_false_iff_not]
  omega

/-- A complete slot is handed out, once. -/
theorem handOut_rests (h : SlotHolds slot held) (hopen : slot.handed = false) :
    ∃ slot' : Partial, handOut slot = (.ok, decide (slot'.arrived = slot'.chunks), slot') ∧
      Rests slot' held ∧ SameMessage slot slot' ∧ slot'.chunkSize = slot.chunkSize := by
  unfold handOut
  by_cases hall : slot.arrived = slot.chunks
  · rw [if_pos ⟨hall, hopen⟩]
    refine ⟨{ slot with handed := true }, by simp [hall], ⟨⟨h.size, h.pos, h.chunks_le, h.nodup,
      h.index_lt, h.seen_iff, h.arrived, h.bytes, h.stride_le, h.waits, ?_⟩, ?_⟩,
      ⟨rfl, rfl, rfl, rfl, rfl, rfl⟩, rfl⟩
    · intro hstride x hx
      obtain ⟨hfits, hat⟩ := h.placed hstride x hx
      exact ⟨⟨hfits.index_lt, hfits.payload_pos, hfits.payload_le, hfits.full⟩, hat⟩
    · exact ⟨fun _ => hall, fun _ => rfl⟩
  · rw [if_neg fun hout => hall hout.1]
    refine ⟨slot, by simp [hall], ⟨h, ?_⟩, ⟨rfl, rfl, rfl, rfl, rfl, rfl⟩, rfl⟩
    rw [hopen]
    exact iff_of_false Bool.false_ne_true hall

/-- **What one piece does to its slot**: it leaves it as it was, or it is new and the
slot holds it too, handed out exactly when it is complete. -/
inductive TakeCase (slot : Partial) (held : List (ℕ × Bytes)) (index : ℕ) (payload : Bytes) :
    ReasmErr × Bool × Partial → Prop
  | kept (err : ReasmErr) (hok : (index, payload) ∈ held → err = .ok)
      (hnew : index ∉ held.map Prod.fst → slot.chunkSize = 0 ∧ index + 1 ≠ slot.chunks ∧
        (payload.length = 0 ∨ payload.length < slot.parked ∨
          payload.length > slot.buf.length / slot.chunks)) :
      TakeCase slot held index payload (err, false, slot)
  | added (slot' : Partial) (hnew : index ∉ held.map Prod.fst)
      (hrests : Rests slot' (held ++ [(index, payload)])) (hsame : SameMessage slot slot')
      (hstride : slot'.chunkSize = slot.chunkSize ∨
        slot.chunkSize = 0 ∧ index + 1 ≠ slot.chunks ∧ slot'.chunkSize = payload.length) :
      TakeCase slot held index payload (.ok, decide (slot'.arrived = slot'.chunks), slot')

/-- A piece already held changes nothing, whatever its bytes. -/
theorem placePiece_seen (h : Rests slot held) (hstride : slot.chunkSize ≠ 0)
    (hfits : Fits slot index payload) (hheld : index ∈ held.map Prod.fst) :
    ∃ err, placePiece slot index payload = (err, false, slot) ∧
      ((index, payload) ∈ held → err = .ok) := by
  have hseen : seenGet slot index = true := (h.holds.seen_iff index).2 hheld
  have hnone : handOut slot = (.ok, false, slot) := by
    unfold handOut
    refine if_neg fun hout => ?_
    have hhanded := h.handed_iff.2 hout.1
    rw [hout.2] at hhanded
    exact absurd hhanded Bool.false_ne_true
  unfold placePiece
  rw [guardTaken_eq_false h.holds hfits, if_neg Bool.false_ne_true, if_pos hseen, hnone]
  by_cases hsame : Lib.load slot.buf (offsetOf slot index) payload.length ≠ payload
  · refine ⟨.conflict, if_pos hsame, fun hmem => absurd ?_ hsame⟩
    rw [h.holds.offsetOf_eq hfits.index_lt]
    exact (h.holds.placed hstride _ hmem).at_place
  · exact ⟨.ok, if_neg hsame, fun _ => rfl⟩

/-- A new piece is added. -/
theorem placePiece_new (h : SlotHolds slot held)
    (hhanded : slot.handed = true → slot.arrived = slot.chunks) (hstride : slot.chunkSize ≠ 0)
    (hfits : Fits slot index payload) (hnew : index ∉ held.map Prod.fst) :
    ∃ slot' : Partial,
      placePiece slot index payload = (.ok, decide (slot'.arrived = slot'.chunks), slot') ∧
        Rests slot' (held ++ [(index, payload)]) ∧ SameMessage slot slot' ∧
        slot'.chunkSize = slot.chunkSize := by
  have hseen : ¬ seenGet slot index = true := fun hs => hnew ((h.seen_iff index).1 hs)
  have hopen : slot.handed = false := by
    refine Bool.eq_false_iff.2 fun hh => hseen ?_
    exact h.seen_of_complete (hhanded hh) hfits.index_lt
  obtain ⟨hholds, hlen⟩ := writePiece_holds h hstride hfits hnew
  obtain ⟨slot', heq, hrests, hsame, hsize⟩ := handOut_rests hholds hopen
  refine ⟨slot', ?_, hrests, ⟨hsame.sender, hsame.msg, hsame.chunks, hsame.expiresAt,
    hsame.live, hsame.capacity.trans hlen⟩, hsize⟩
  unfold placePiece
  rw [guardTaken_eq_false h hfits, if_neg Bool.false_ne_true, if_neg hseen]
  exact heq

/-- A call that returns before the bounds check parks the last piece, or changes
nothing. -/
theorem takePiece_done {slot slot' : Partial} {err : ReasmErr} (h : Rests slot held)
    (hoff : Offered slot index payload) (hdone : beforeGuard slot index payload = .done err slot') :
    TakeCase slot held index payload (err, false, slot') := by
  have hlt := hoff.index_lt
  unfold beforeGuard at hdone
  by_cases hstride : slot.chunkSize = 0
  · rw [if_pos hstride] at hdone
    obtain ⟨hmany, hwaits⟩ := h.holds.waits hstride
    by_cases hlast : index + 1 = slot.chunks
    · rw [if_pos hlast] at hdone
      rcases hwaits with ⟨rfl, hzero⟩ | ⟨p, rfl, hplen, hppos, hpfit, hp⟩
      · rw [if_pos hzero] at hdone
        obtain ⟨rfl, rfl⟩ := Reached.done.inj hdone
        have hholds := parkPiece_holds h.holds hstride hlast (hoff.last_pos hlast)
          (hoff.fresh hstride hzero).2
        have hone : (parkPiece slot index payload).arrived = 1 := hholds.arrived
        have hless : ¬ (parkPiece slot index payload).arrived =
            (parkPiece slot index payload).chunks := by
          rw [hone]
          show ¬ 1 = slot.chunks
          omega
        have hopen : ¬ slot.handed = true := by
          rw [h.handed_iff, h.holds.arrived, List.length_nil]
          omega
        rw [← decide_eq_false hless]
        refine .added _ List.not_mem_nil ⟨hholds, ?_⟩ ⟨rfl, rfl, rfl, rfl, rfl, ?_⟩ (Or.inl rfl)
        · exact iff_of_false hopen hless
        · have hle : payload.length ≤ slot.buf.length :=
            Nat.le_trans (Nat.le_mul_of_pos_right _ h.holds.pos) (hoff.fresh hstride hzero).2
          exact Lib.length_store (by omega)
      · have hindex : index = slot.chunks - 1 := by omega
        have hmem : index ∈ [(slot.chunks - 1, p)].map Prod.fst := by simp [hindex]
        rw [if_neg (by omega)] at hdone
        by_cases hdiff : payload.length ≠ slot.parked ∨
            Lib.load slot.buf (slot.buf.length - slot.parked) payload.length ≠ payload
        · rw [if_pos hdiff] at hdone
          obtain ⟨rfl, rfl⟩ := Reached.done.inj hdone
          refine .kept _ (fun hsame => ?_) fun hno => absurd hmem hno
          obtain ⟨-, rfl⟩ : index = slot.chunks - 1 ∧ payload = p := by simpa using hsame
          rw [← hplen] at hp
          rw [← hplen] at hdiff
          exact absurd hp (hdiff.resolve_left fun hne => hne rfl)
        · rw [if_neg hdiff] at hdone
          obtain ⟨rfl, rfl⟩ := Reached.done.inj hdone
          exact .kept _ (fun _ => rfl) fun hno => absurd hmem hno
    · rw [if_neg hlast] at hdone
      have hout : (index, payload) ∉ held := by
        intro hmem
        rcases hwaits with ⟨rfl, -⟩ | ⟨p, rfl, -⟩
        · exact absurd hmem List.not_mem_nil
        · have hindex : index = slot.chunks - 1 ∧ payload = p := by simpa using hmem
          omega
      by_cases hshort : payload.length = 0 ∨ payload.length < slot.parked
      · rw [if_pos hshort] at hdone
        obtain ⟨rfl, rfl⟩ := Reached.done.inj hdone
        refine .kept _ (fun hmem => absurd hmem hout) fun _ => ⟨hstride, hlast, ?_⟩
        omega
      rw [if_neg hshort] at hdone
      by_cases hlong : payload.length > slot.buf.length / slot.chunks
      · rw [if_pos hlong] at hdone
        obtain ⟨rfl, rfl⟩ := Reached.done.inj hdone
        exact .kept _ (fun hmem => absurd hmem hout)
          fun _ => ⟨hstride, hlast, Or.inr (Or.inr hlong)⟩
      rw [if_neg hlong] at hdone
      simp at hdone
  · rw [if_neg hstride] at hdone
    simp at hdone

theorem takePiece_cases (h : Rests slot held) (hoff : Offered slot index payload) :
    TakeCase slot held index payload (takePiece slot index payload) := by
  unfold takePiece
  cases hreached : beforeGuard slot index payload with
  | guard slot' =>
    obtain ⟨hholds, hstride, hfits, hsame, harrived, -, hhanded, -, hset⟩ :=
      beforeGuard_guard h.holds hoff hreached
    show TakeCase slot held index payload (placePiece slot' index payload)
    by_cases hnew : index ∈ held.map Prod.fst
    · -- only a slot whose stride was known already holds the index
      have hkeep : slot' = slot := by
        unfold beforeGuard at hreached
        by_cases hzero : slot.chunkSize = 0
        · have hlast : index + 1 = slot.chunks := by
            obtain ⟨-, hnone | ⟨p, rfl, -⟩⟩ := h.holds.waits hzero
            · rw [hnone.1] at hnew
              exact absurd hnew List.not_mem_nil
            · have hindex : index = slot.chunks - 1 := by simpa using hnew
              have hpos := h.holds.pos
              omega
          rw [if_pos hzero, if_pos hlast] at hreached
          split_ifs at hreached
        · rw [if_neg hzero] at hreached
          exact (Reached.guard.inj hreached).symm
      obtain rfl := hkeep
      obtain ⟨err, heq, hok⟩ := placePiece_seen h hstride hfits hnew
      rw [heq]
      exact .kept err hok fun hno => absurd hnew hno
    · obtain ⟨slot'', heq, hrests, hsame', hsize⟩ :=
        placePiece_new hholds (fun hh => by
          rw [harrived, hsame.chunks]
          exact h.handed_iff.1 (hhanded ▸ hh)) hstride hfits hnew
      rw [heq]
      exact .added slot'' hnew hrests ⟨hsame'.sender.trans hsame.sender,
        hsame'.msg.trans hsame.msg, hsame'.chunks.trans hsame.chunks,
        hsame'.expiresAt.trans hsame.expiresAt, hsame'.live.trans hsame.live,
        hsame'.capacity.trans hsame.capacity⟩ (by rwa [hsize])
  | done err slot' =>
    show TakeCase slot held index payload (err, false, slot')
    exact takePiece_done h hoff hreached

end Chunk
end Fuzznet
