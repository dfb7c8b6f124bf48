/-
# A piece that comes again

`chunk/reassembly.c`, `fzn_reasm_accept` on an index that has arrived.  The piece held is
what the run gave the slot (`Note.held`), the slot stays as it is whatever comes
(`takePiece_repeat`), and the answer compares bytes.

A last piece that is parked is compared with its length.  A piece in its place is compared
over the length of the repeat alone, and the last one need not fill its place: a shorter
repeat is compared with its front, a longer one with bytes of the buffer behind it that no
piece of the message wrote.  `ReadsOn` is where such a repeat agrees, and there only does
the answer differ from what the pieces held say (`reasmAccept_repeat_ok_iff`).
-/

import Fuzznet.Chunk.Table

namespace Fuzznet
namespace Chunk

open Wire

/-- The payload is another length than `p`, the last piece, and agrees with the buffer as
far as it goes. -/
def ReadsOn (slot : Partial) (index : ℕ) (payload p : Bytes) : Prop :=
  slot.chunkSize ≠ 0 ∧ index + 1 = slot.chunks ∧ 0 < payload.length ∧
    payload.length ≤ slot.chunkSize ∧ payload.length ≠ p.length ∧
    Lib.load slot.buf (index * slot.chunkSize) payload.length = payload

/-! ## A slot asked again -/

section Slot

variable {slot : Partial} {held : List (ℕ × Bytes)} {index : ℕ} {payload p : Bytes}

/-- While the stride is unknown, the piece held is the last one. -/
theorem SlotHolds.parked_of_mem (h : SlotHolds slot held) (hstride : slot.chunkSize = 0)
    (hmem : (index, p) ∈ held) :
    index + 1 = slot.chunks ∧ p.length = slot.parked ∧ 0 < slot.parked ∧
      Lib.load slot.buf (slot.buf.length - slot.parked) slot.parked = p := by
  have hpos := h.pos
  obtain ⟨-, ⟨rfl, -⟩ | ⟨q, rfl, hlen, hparked, -, hq⟩⟩ := h.waits hstride
  · exact absurd hmem List.not_mem_nil
  · obtain ⟨rfl, rfl⟩ : index = slot.chunks - 1 ∧ p = q := by simpa using hmem
    exact ⟨by omega, hlen, hparked, hq⟩

/-- A piece held has bytes. -/
theorem SlotHolds.length_pos_of_mem (h : SlotHolds slot held) (hmem : (index, p) ∈ held) :
    0 < p.length := by
  by_cases hstride : slot.chunkSize = 0
  · obtain ⟨-, hlen, hpos, -⟩ := h.parked_of_mem hstride hmem
    omega
  · exact (h.placed hstride _ hmem).fits.payload_pos

/-- **A repeat of a parked piece** is compared with its length. -/
theorem takePiece_parked (h : SlotHolds slot held) (hstride : slot.chunkSize = 0)
    (hmem : (index, p) ∈ held) :
    (takePiece slot index payload).1 = .ok ↔ payload = p := by
  obtain ⟨hlast, hlen, hparked, hp⟩ := h.parked_of_mem hstride hmem
  rw [takePiece, beforeGuard, if_pos hstride, if_pos hlast, if_neg (by omega)]
  by_cases hdiff : payload.length ≠ slot.parked ∨
      Lib.load slot.buf (slot.buf.length - slot.parked) payload.length ≠ payload
  · rw [if_pos hdiff]
    refine iff_of_false nofun fun heq => ?_
    subst heq
    rcases hdiff with hne | hne
    · exact hne hlen
    · rw [hlen] at hne
      exact hne hp
  · rw [if_neg hdiff]
    have hsame := not_or.1 hdiff
    refine iff_of_true rfl ?_
    rw [← not_not.1 hsame.2, not_not.1 hsame.1]
    exact hp

/-- **A repeat of a piece in its place** is compared over its own length. -/
theorem takePiece_placed (h : SlotHolds slot held) (hstride : slot.chunkSize ≠ 0)
    (hfits : Fits slot index payload) (hmem : index ∈ held.map Prod.fst) :
    (takePiece slot index payload).1 = .ok ↔
      Lib.load slot.buf (index * slot.chunkSize) payload.length = payload := by
  rw [takePiece, beforeGuard, if_neg hstride]
  dsimp only
  rw [placePiece, guardTaken_eq_false h hfits, if_neg Bool.false_ne_true,
    if_pos ((h.seen_iff index).2 hmem), h.offsetOf_eq hfits.index_lt]
  by_cases hdiff : Lib.load slot.buf (index * slot.chunkSize) payload.length ≠ payload
  · rw [if_pos hdiff]
    exact iff_of_false nofun hdiff
  · rw [if_neg hdiff]
    refine iff_of_true ?_ (not_not.1 hdiff)
    unfold handOut
    split_ifs
    · rfl
    · rfl

/-- **A repeat leaves the slot as it is.** -/
theorem takePiece_repeat (h : Rests slot held) (hoffered : Offered slot index payload)
    (hmem : (index, p) ∈ held) : (takePiece slot index payload).2.2 = slot := by
  have hcase := takePiece_cases h hoffered
  generalize takePiece slot index payload = r at hcase ⊢
  cases hcase with
  | kept err _ _ => rfl
  | added slot' hnew _ _ _ => exact absurd (List.mem_map.2 ⟨_, hmem, rfl⟩) hnew

/-- What a later piece must agree with, for an index that has arrived. -/
theorem agrees_iff {c : Piece} (h : SlotHolds slot held) (hmem : (c.index, p) ∈ held) :
    agrees slot c = true ↔ c.chunks = slot.chunks ∧
      (c.index + 1 = slot.chunks → 0 < c.payload.length) ∧
      (slot.chunkSize ≠ 0 → Fits slot c.index c.payload) := by
  have hlt : c.index < slot.chunks := h.index_lt _ hmem
  by_cases hchunks : slot.chunks ≠ c.chunks
  · rw [agrees, if_pos hchunks]
    exact iff_of_false Bool.false_ne_true fun hall => hchunks hall.1.symm
  refine ⟨fun hagrees => ⟨(not_not.1 hchunks).symm, ?_⟩, fun hall => ?_⟩
  · have hoffered := offered_of_agrees h (List.ne_nil_of_mem hmem) hagrees
    exact ⟨hoffered.last_pos, hoffered.fits⟩
  · rw [agrees, if_neg hchunks, if_neg (by omega)]
    by_cases hlast : c.index + 1 = slot.chunks
    · have hpos := hall.2.1 hlast
      rw [if_pos hlast]
      by_cases hstride : slot.chunkSize = 0
      · simpa [hstride] using List.ne_nil_of_length_pos hpos
      · have hle := (hall.2.2 hstride).payload_le
        simpa [hstride, hle] using List.ne_nil_of_length_pos hpos
    · rw [if_neg hlast]
      by_cases hstride : slot.chunkSize = 0
      · simp [hstride]
      · simp [(hall.2.2 hstride).full (by omega)]

/-- **Which repeats a slot takes**: the piece held, and what reads on past it or stops
short of it. -/
theorem repeat_ok_iff {c : Piece} (h : SlotHolds slot held) (hmem : (c.index, p) ∈ held) :
    agrees slot c = true ∧ (takePiece slot c.index c.payload).1 = .ok ↔
      c.chunks = slot.chunks ∧ (c.payload = p ∨ ReadsOn slot c.index c.payload p) := by
  have hindex : c.index ∈ held.map Prod.fst := List.mem_map.2 ⟨_, hmem, rfl⟩
  have hlt : c.index < slot.chunks := h.index_lt _ hmem
  rw [agrees_iff h hmem, and_assoc]
  refine and_congr_right fun _ => ?_
  by_cases hstride : slot.chunkSize = 0
  · rw [takePiece_parked h hstride hmem]
    refine ⟨fun hall => .inl hall.2, ?_⟩
    rintro (rfl | hreads)
    · exact ⟨⟨fun _ => h.length_pos_of_mem hmem, fun hne => absurd hstride hne⟩, rfl⟩
    · exact absurd hstride hreads.1
  obtain ⟨hfits, hplace⟩ := h.placed hstride _ hmem
  constructor
  · rintro ⟨⟨-, hfits'⟩, hok⟩
    have hfits' := hfits' hstride
    rw [takePiece_placed h hstride hfits' hindex] at hok
    by_cases hlen : c.payload.length = p.length
    · refine .inl ?_
      rw [← hok, hlen]
      exact hplace
    · refine .inr ⟨hstride, ?_, hfits'.payload_pos, hfits'.payload_le, hlen, hok⟩
      by_contra hmore
      have hfull := hfits.full (by dsimp only; omega)
      have hfull' := hfits'.full (by omega)
      exact hlen (hfull'.trans hfull.symm)
  · rintro (rfl | ⟨-, hlast, hpos, hle, -, hok⟩)
    · exact ⟨⟨fun _ => hfits.payload_pos, fun _ => hfits⟩,
        (takePiece_placed h hstride hfits hindex).2 hplace⟩
    · have hfits' : Fits slot c.index c.payload := ⟨hlt, hpos, hle, fun hmore => by omega⟩
      exact ⟨⟨fun _ => hpos, fun _ => hfits'⟩,
        (takePiece_placed h hstride hfits' hindex).2 hok⟩

end Slot

/-! ## Behind a run -/

/-- Behind a run of a fresh table, slot `i` is live at `now` with the message of `c`, and
`p` is the piece it holds under the index of `c`, which is fresh. -/
structure Repeats (table : Reasm) (calls : List ReasmCall) (c : Piece) (now : UInt64) (i : ℕ)
    (slot : Partial) (p : Bytes) : Prop where
  begun : ∃ slots perSenderMax maxHold, (∀ slot ∈ slots, ∃ buf, slotInit buf = .ok slot) ∧
    reasmInit slots perSenderMax maxHold = .ok table
  at_slot : (reasmExpire (reasmRun table calls) now).2.partials[i]? = some slot
  of_message : slot.isOf c.sender c.msg = true
  piece : (c.index, p) ∈ ((watchRun table calls).2 i).held
  fresh : c.expiresAt = 0 ∨ now < c.expiresAt

section Run

variable {table : Reasm} {calls : List ReasmCall} {c : Piece} {now : UInt64} {i : ℕ}
  {slot : Partial} {p : Bytes}

section

variable (h : Repeats table calls c now i slot p)
include h

theorem Repeats.tableOk :
    TableOk (reasmExpire (reasmRun table calls) now).2 (watchRun table calls).2 := by
  obtain ⟨slots, perSenderMax, maxHold, hslots, hinit⟩ := h.begun
  have hok := watchRun_ok hslots hinit calls
  rw [watchRun_fst] at hok
  exact hok.drop _

theorem Repeats.rests : Rests slot ((watchRun table calls).2 i).held :=
  (h.tableOk.slots i slot h.at_slot).rests (Partial.isOf_iff.1 h.of_message).1

/-- The repeat goes to the slot of its message, if it agrees with it. -/
theorem Repeats.slotFor_eq :
    slotFor (reasmExpire (reasmRun table calls) now).2 c now =
      if agrees slot c then .ok (slot, i)
      else .error (.mismatch, (reasmExpire (reasmRun table calls) now).2) := by
  have hfresh : ¬(c.expiresAt ≠ 0 ∧ c.expiresAt ≤ now) := fun hold =>
    h.fresh.elim hold.1 fun hlt => UInt64.not_lt.2 hold.2 hlt
  rw [slotFor, if_neg hfresh]
  cases hfind : find (reasmExpire (reasmRun table calls) now).2 c.sender c.msg with
  | none =>
    have hnone := first_eq_none hfind (List.mem_of_getElem? h.at_slot)
    rw [h.of_message] at hnone
    cases hnone
  | some x =>
    obtain ⟨slot', j⟩ := x
    obtain ⟨hslot', hof'⟩ := first_eq_some hfind
    obtain ⟨hlive, hmsg, hsender⟩ := Partial.isOf_iff.1 h.of_message
    obtain ⟨hlive', hmsg', hsender'⟩ := Partial.isOf_iff.1 hof'
    obtain rfl := h.tableOk.one j i slot' slot hslot' h.at_slot hlive' hlive
      (hsender'.trans hsender.symm) (hmsg'.trans hmsg.symm)
    obtain rfl := Option.some.inj (hslot'.symm.trans h.at_slot)
    rfl

/-- **When a repeat is accepted**, behind any run. -/
theorem Repeats.ok_iff :
    (reasmAccept (reasmRun table calls) c now).1 = .ok ↔
      c.chunks = slot.chunks ∧ (c.payload = p ∨ ReadsOn slot c.index c.payload p) := by
  rw [← repeat_ok_iff h.rests.holds h.piece, reasmAccept, h.slotFor_eq]
  by_cases hagrees : agrees slot c = true
  · rw [if_pos hagrees]
    exact ⟨fun hok => ⟨hagrees, hok⟩, And.right⟩
  · rw [if_neg hagrees]
    exact iff_of_false (fun hok => by cases hok) fun hall => hagrees hall.1

/-- **A repeat changes nothing of its slot**, behind any run. -/
theorem Repeats.kept : (reasmAccept (reasmRun table calls) c now).2.2.partials[i]? = some slot := by
  rw [reasmAccept, h.slotFor_eq]
  by_cases hagrees : agrees slot c = true
  · rw [if_pos hagrees]
    have hoffered := offered_of_agrees h.rests.holds (List.ne_nil_of_mem h.piece) hagrees
    obtain ⟨hi, -⟩ := List.getElem?_eq_some_iff.1 h.at_slot
    dsimp only [give]
    rw [takePiece_repeat h.rests hoffered h.piece, List.getElem?_set_self hi]
  · rw [if_neg hagrees]
    exact h.at_slot

end

/-- **A repeat is accepted only when identical**, except where it reads on.  Behind every
run, for a fresh chunk of an index that has arrived for a live message: it is accepted
exactly when its `chunks` agrees and its payload is the piece that arrived, it changes
nothing of the slot, and it is accepted as it is where that piece is parked, if and only if
it is not a repeat of the last piece with the same `chunks`, of another length, that agrees
with the buffer as far as it goes. -/
theorem reasmAccept_repeat_ok_iff {slots : List Partial} {perSenderMax : ℕ} {maxHold : UInt64}
    (hslots : ∀ slot ∈ slots, ∃ buf, slotInit buf = .ok slot)
    (hinit : reasmInit slots perSenderMax maxHold = .ok table)
    (hslot : (reasmExpire (reasmRun table calls) now).2.partials[i]? = some slot)
    (hof : slot.isOf c.sender c.msg = true) (hseen : seenGet slot c.index = true)
    (hfresh : c.expiresAt = 0 ∨ now < c.expiresAt) :
    ∃ p, (c.index, p) ∈ ((watchRun table calls).2 i).held ∧
      ((((reasmAccept (reasmRun table calls) c now).1 = .ok ↔
            c.chunks = slot.chunks ∧ c.payload = p) ∧
          (reasmAccept (reasmRun table calls) c now).2.2.partials[i]? = some slot ∧
          ∀ table' calls' c' now' i' slot', Repeats table' calls' c' now' i' slot' p →
            slot'.chunkSize = 0 → slot'.chunks = slot.chunks → c'.index = c.index →
            c'.chunks = c.chunks → c'.payload = c.payload →
            ((reasmAccept (reasmRun table' calls') c' now').1 = .ok ↔
              (reasmAccept (reasmRun table calls) c now).1 = .ok)) ↔
        ¬(c.chunks = slot.chunks ∧ ReadsOn slot c.index c.payload p)) := by
  have hok := watchRun_ok hslots hinit calls
  rw [watchRun_fst] at hok
  have hswept : TableOk (reasmExpire (reasmRun table calls) now).2 (watchRun table calls).2 :=
    hok.drop _
  have hrests := (hswept.slots i slot hslot).rests (Partial.isOf_iff.1 hof).1
  obtain ⟨⟨index, p⟩, hpiece, hindex⟩ := List.mem_map.1 ((hrests.holds.seen_iff c.index).1 hseen)
  obtain rfl : index = c.index := hindex
  have h : Repeats table calls c now i slot p :=
    ⟨⟨slots, perSenderMax, maxHold, hslots, hinit⟩, hslot, hof, hpiece, hfresh⟩
  refine ⟨p, hpiece, ⟨fun hall hreads => ?_, fun hno => ?_⟩⟩
  · have hsame := hall.1.1 (h.ok_iff.2 ⟨hreads.1, .inr hreads.2⟩)
    exact hreads.2.2.2.2.2.1 (congrArg List.length hsame.2)
  · have hiff : (reasmAccept (reasmRun table calls) c now).1 = .ok ↔
        c.chunks = slot.chunks ∧ c.payload = p := by
      rw [h.ok_iff]
      exact and_congr_right fun hchunks =>
        ⟨fun hor => hor.resolve_right fun hreads => hno ⟨hchunks, hreads⟩, .inl⟩
    refine ⟨hiff, h.kept, fun table' calls' c' now' i' slot' h' hparked hchunks _ hsame hpayload => ?_⟩
    rw [h'.ok_iff, hiff, hsame, hpayload, hchunks]
    exact and_congr_right fun _ =>
      ⟨fun hor => hor.resolve_right fun hreads => hreads.1 hparked, .inl⟩

end Run

/-! ## A repeat that stops short -/

/-- A table of one slot of six bytes. -/
def sixBytes : Reasm := ⟨[emptySlot [0, 0, 0, 0, 0, 0]], 1, 9⟩

/-- The first and the last piece of three, of two bytes each. -/
def twoPairs : List ReasmCall :=
  [.accept ⟨7, 1, 0, 3, [10, 20], 0⟩ 5, .accept ⟨7, 1, 2, 3, [30, 40], 0⟩ 6]

/-- The last piece again, and only its first byte. -/
def stopsShort : Piece := ⟨7, 1, 2, 3, [30], 0⟩

/-- The last piece of a message arrives as two bytes; a repeat of it that has only the first
of them is accepted where the piece is placed, and refused where it is parked. -/
theorem stopsShort_accepted :
    ((watchRun sixBytes twoPairs).2 0).held = [(0, [10, 20]), (2, [30, 40])] ∧
    (reasmAccept (reasmRun sixBytes twoPairs) stopsShort 7).1 = .ok ∧
    ((watchRun sixBytes (twoPairs.drop 1)).2 0).held = [(2, [30, 40])] ∧
    (reasmAccept (reasmRun sixBytes (twoPairs.drop 1)) stopsShort 7).1 = .conflict := by
  decide

/-- What `sixBytes` holds behind the two pieces. -/
def bothPairs : Partial := ⟨7, 1, 3, 2, 14, [10, 20, 0, 0, 30, 40], 2, 4, 0, 5, true, false⟩

/-- The first piece again is accepted, and is no piece that reads on. -/
theorem reasmAccept_repeat_ok_iff_twoPairs :
    ∃ p, (0, p) ∈ ((watchRun sixBytes twoPairs).2 0).held ∧
      ((reasmAccept (reasmRun sixBytes twoPairs) ⟨7, 1, 0, 3, [10, 20], 0⟩ 7).1 = .ok ↔
        3 = bothPairs.chunks ∧ [10, 20] = p) := by
  have hslots : ∀ slot ∈ sixBytes.partials, ∃ buf, slotInit buf = .ok slot := fun slot hslot => by
    obtain rfl := List.mem_singleton.1 hslot
    exact ⟨⟨[0, 0, 0, 0, 0, 0], by decide⟩, rfl⟩
  have hat : (reasmExpire (reasmRun sixBytes twoPairs) 7).2.partials[0]? = some bothPairs := by
    decide
  obtain ⟨p, hpiece, hiff⟩ := reasmAccept_repeat_ok_iff (c := ⟨7, 1, 0, 3, [10, 20], 0⟩) hslots
    (rfl : reasmInit sixBytes.partials 1 9 = .ok sixBytes) hat (by decide) (by decide) (.inl rfl)
  exact ⟨p, hpiece, (hiff.2 fun hreads => absurd hreads.2.2.1 (by decide)).1⟩

end Chunk
end Fuzznet
