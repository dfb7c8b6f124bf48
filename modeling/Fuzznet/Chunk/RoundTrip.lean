/-
# Split, then reassemble

The pieces `fzn_split_at` cuts from a message, delivered to `fzn_reasm_accept` in any
order and any number of times, between pieces of other messages and sweeps, fill one
slot.  `Assembling` is what that slot is on the way: a live slot of the message whose
pieces are pieces of the cut, and whose stride is the cut's as soon as it is known.
A piece of the message is never refused there (`Assembling.take`), no other call
touches the slot before its deadline (`other_step`), and a slot that has every index
starts with the message (`Assembling.complete`).

A slot must be there to be filled: when the first piece comes, the table must have a
free slot and the sender quota left.  A table filled by other senders refuses the piece
(`full_table_refuses`).
-/

import Fuzznet.Chunk.Split
import Fuzznet.Chunk.Table

namespace Fuzznet
namespace Chunk

open Wire

/-- A piece of the cut of `message`, still fresh at `now`. -/
structure Genuine (plan : Split) (message : Bytes) (sender : Bytes32) (msg : UInt32) (c : Piece)
    (now : UInt64) : Prop where
  sender_eq : c.sender = sender
  msg_eq : c.msg = msg
  chunks_eq : c.chunks = plan.chunks
  cut : ∃ off len, splitAt plan c.index = .ok (off, len) ∧ c.payload = Lib.load message off len
  fresh : c.expiresAt = 0 ∨ now < c.expiresAt

/-- A call that may come while the message is on its way: a piece of it, a piece of
another message, or a sweep, before `limit`. -/
def Delivers (plan : Split) (message : Bytes) (sender : Bytes32) (msg : UInt32) (limit : UInt64) :
    ReasmCall → Prop
  | .accept c now =>
    now < limit ∧ (c.sender = sender → c.msg = msg → Genuine plan message sender msg c now)
  | .expire now => now < limit
  | .forget _ _ => False
  | .release _ => False

/-- The index of a piece of message `msg` of `sender`. -/
def deliveredIndex (sender : Bytes32) (msg : UInt32) : ReasmCall → Option ℕ
  | .accept c _ => if c.sender = sender ∧ c.msg = msg then some c.index else none
  | _ => none

/-- Every piece of the message has been delivered. -/
def Complete (plan : Split) (sender : Bytes32) (msg : UInt32) (calls : List ReasmCall) : Prop :=
  ∀ j < plan.chunks, j ∈ calls.filterMap (deliveredIndex sender msg)

/-- A slot on its way to the message. -/
structure Assembling (plan : Split) (message : Bytes) (sender : Bytes32) (msg : UInt32)
    (limit : UInt64) (slot : Partial) (held : List (ℕ × Bytes)) : Prop where
  live : slot.live = true
  sender_eq : slot.sender = sender
  msg_eq : slot.msg = msg
  chunks_eq : slot.chunks = plan.chunks
  expires_eq : slot.expiresAt = limit
  room : plan.bufferNeeded ≤ slot.buf.length
  rests : Rests slot held
  some_held : held ≠ []
  genuine : ∀ x ∈ held, x.2 = cutPiece plan message x.1
  stride : slot.chunkSize = 0 ∨ slot.chunkSize = plan.chunkSize

variable {plan : Split} {message : Bytes} {sender : Bytes32} {msg : UInt32} {limit : UInt64}
variable {slot : Partial} {held : List (ℕ × Bytes)} {c : Piece} {table : Reasm} {i : ℕ}
variable {now : UInt64} {notes : ℕ → Note}

/-- What a genuine piece is. -/
theorem Genuine.piece (hcut : Cut plan message.length) (h : Genuine plan message sender msg c now) :
    c.index < plan.chunks ∧ c.payload = cutPiece plan message c.index := by
  obtain ⟨off, len, hat, hpayload⟩ := h.cut
  rw [splitAt_cut hcut] at hat
  split_ifs at hat with hindex
  obtain ⟨rfl, rfl⟩ := Prod.mk.inj (Except.ok.inj hat)
  exact ⟨hindex, hpayload⟩

theorem Genuine.not_expired (h : Genuine plan message sender msg c now) :
    ¬ (c.expiresAt ≠ 0 ∧ c.expiresAt ≤ now) := by
  rintro ⟨hne, hle⟩
  rcases h.fresh with hzero | hlt
  · exact hne hzero
  · exact UInt64.not_le.2 hlt hle

/-- A piece of the cut claims the cut's stride, or none. -/
theorem Cut.firstStride_eq (hcut : Cut plan message.length) (hchunks : c.chunks = plan.chunks)
    (hindex : c.index < plan.chunks) (hlen : c.payload.length = cutLen plan c.index) :
    firstStride c = 0 ∨ firstStride c = plan.chunkSize := by
  unfold firstStride
  by_cases hlast : c.chunks > 1 ∧ c.index + 1 = c.chunks
  · exact Or.inl (if_pos hlast)
  · rw [if_neg hlast, hlen]
    refine Or.inr ?_
    by_cases hone : c.index + 1 = plan.chunks
    · -- the last piece and not of several: the stride is the message
      have hsingle : plan.chunks = 1 := by omega
      have hzero : c.index = 0 := by omega
      have htotal := hcut.total_le
      have hstride := hcut.stride_le
      rw [hsingle] at htotal
      rw [cutLen, if_pos hone, hcut.total_eq, hzero]
      omega
    · exact (hcut.cutLen_spec hindex).2.2.2 hone

/-- The stride of the cut fits the room it asks for. -/
theorem Cut.le_div {total : ℕ} (hcut : Cut plan total) (hchunks : slot.chunks = plan.chunks)
    (hroom : plan.bufferNeeded ≤ slot.buf.length) :
    plan.chunkSize ≤ slot.buf.length / slot.chunks := by
  rw [hchunks, Nat.le_div_iff_mul_le hcut.pos, ← hcut.needed]
  exact hroom

/-- A piece of the cut agrees with the slot its message has. -/
theorem Assembling.agrees (h : Assembling plan message sender msg limit slot held)
    (hcut : Cut plan message.length) (hchunks : c.chunks = plan.chunks)
    (hindex : c.index < plan.chunks) (hpayload : c.payload = cutPiece plan message c.index) :
    agrees slot c = true := by
  obtain ⟨hpos, hle, -, hfull⟩ := hcut.cutLen_spec hindex
  have hlen : c.payload.length = cutLen plan c.index := by
    rw [hpayload]
    exact hcut.length_cutPiece hindex
  have hslot := h.chunks_eq
  have hstride := h.stride
  unfold Chunk.agrees
  rw [if_neg (by omega), if_neg (by omega)]
  by_cases hlast : c.index + 1 = slot.chunks
  · rw [if_pos hlast]
    simp only [Bool.not_eq_true', Bool.or_eq_false_iff, Bool.and_eq_false_iff,
      decide_eq_false_iff_not]
    omega
  · rw [if_neg hlast]
    have hwhole := hfull (by omega)
    simp only [Bool.not_eq_true', Bool.and_eq_false_iff, decide_eq_false_iff_not]
    omega

/-- A slot has as many pieces as indices when it has every index. -/
theorem SlotHolds.complete_iff (h : SlotHolds slot held) :
    slot.arrived = slot.chunks ↔ ∀ j < slot.chunks, j ∈ held.map Prod.fst := by
  constructor
  · intro hall j hj
    exact (h.seen_iff j).1 (h.seen_of_complete hall hj)
  · intro hall
    have hsub : List.range slot.chunks ⊆ held.map Prod.fst := fun j hj =>
      hall j (List.mem_range.1 hj)
    have hle := (List.subperm_of_subset List.nodup_range hsub).length_le
    rw [List.length_range, List.length_map] at hle
    have hge := h.length_le
    rw [h.arrived]
    omega

/-- **A piece of the message is taken**, whatever came before it: it is held then, and
the slot is handed out exactly when the piece is new and the last one missing. -/
theorem Assembling.take (h : Assembling plan message sender msg limit slot held)
    (hcut : Cut plan message.length) (hchunks : c.chunks = plan.chunks)
    (hindex : c.index < plan.chunks) (hpayload : c.payload = cutPiece plan message c.index) :
    ∃ out slot' held', takePiece slot c.index c.payload = (.ok, out, slot') ∧
      Assembling plan message sender msg limit slot' held' ∧
      (∀ j, j ∈ held'.map Prod.fst ↔ j ∈ held.map Prod.fst ∨ j = c.index) ∧
      (out = true ↔ (∀ j < plan.chunks, j ∈ held'.map Prod.fst) ∧ c.index ∉ held.map Prod.fst) := by
  obtain ⟨hpos, hle, -, hfull⟩ := hcut.cutLen_spec hindex
  have hlen : c.payload.length = cutLen plan c.index := by
    rw [hpayload]
    exact hcut.length_cutPiece hindex
  have hoff := offered_of_agrees h.rests.holds h.some_held (h.agrees hcut hchunks hindex hpayload)
  have htake := takePiece_cases h.rests hoff
  generalize takePiece slot c.index c.payload = r at htake ⊢
  cases htake with
  | kept err hok hnew =>
    by_cases hheld : c.index ∈ held.map Prod.fst
    · obtain ⟨x, hx, hxi⟩ := List.mem_map.1 hheld
      have hsame : (c.index, c.payload) ∈ held := by
        have hxe : x = (c.index, c.payload) := by
          refine Prod.ext hxi ?_
          rw [h.genuine x hx, hxi, hpayload]
        exact hxe ▸ hx
      refine ⟨false, slot, held, by rw [hok hsame], h, fun j => ?_, ?_⟩
      · exact ⟨Or.inl, fun hj => hj.elim id fun hj => hj ▸ hheld⟩
      · exact iff_of_false Bool.false_ne_true fun hno => hno.2 hheld
    · -- a new piece could only be refused for a length no piece of the cut has
      exfalso
      obtain ⟨hzero, hlast, hbad⟩ := hnew hheld
      have hwhole := hfull (by rw [← h.chunks_eq]; exact hlast)
      have hdiv := hcut.le_div h.chunks_eq h.room
      have hparked : slot.parked ≤ plan.chunkSize := by
        obtain ⟨-, ⟨hnone, -⟩ | ⟨p, rfl, hplen, -⟩⟩ := h.rests.holds.waits hzero
        · exact absurd hnone h.some_held
        · have hp : p = cutPiece plan message (slot.chunks - 1) :=
            h.genuine (slot.chunks - 1, p) (List.mem_singleton.2 rfl)
          have hslot := h.chunks_eq
          have hlt : slot.chunks - 1 < plan.chunks := by omega
          rw [← hplen, hp, hcut.length_cutPiece hlt]
          exact (hcut.cutLen_spec hlt).2.1
      omega
  | added slot' hnew hrests hsame hstride =>
    have hchunks' : slot'.chunks = plan.chunks := hsame.chunks.trans h.chunks_eq
    refine ⟨_, slot', held ++ [(c.index, c.payload)], rfl, ⟨hsame.live.trans h.live,
      hsame.sender.trans h.sender_eq, hsame.msg.trans h.msg_eq, hchunks',
      hsame.expiresAt.trans h.expires_eq, ?_, hrests, by simp, ?_, ?_⟩, fun j => ?_, ?_⟩
    · rw [hsame.capacity]
      exact h.room
    · intro x hx
      rcases List.mem_append.1 hx with hx | hx
      · exact h.genuine x hx
      · obtain rfl := List.mem_singleton.1 hx
        exact hpayload
    · rcases hstride with hkeep | ⟨-, hlast, hset⟩
      · rw [hkeep]
        exact h.stride
      · rw [hset, hlen]
        exact Or.inr (hfull (by rw [← h.chunks_eq]; exact hlast))
    · rw [List.map_append, List.mem_append, List.map_singleton, List.mem_singleton]
    · rw [decide_eq_true_eq, hrests.holds.complete_iff, hchunks']
      exact ⟨fun hall => ⟨hall, hnew⟩, fun hall => hall.1⟩

/-- **A slot that has every piece starts with the message.** -/
theorem Assembling.complete (h : Assembling plan message sender msg limit slot held)
    (hcut : Cut plan message.length) (hall : slot.arrived = slot.chunks) :
    slot.bytes = message.length ∧ slot.buf.take message.length = message := by
  have hholds := h.rests.holds
  have hindices := hholds.complete_iff.1 hall
  have hpiece : ∀ j < plan.chunks, (j, cutPiece plan message j) ∈ held := by
    intro j hj
    obtain ⟨x, hx, rfl⟩ := List.mem_map.1 (hindices j (by rw [h.chunks_eq]; exact hj))
    rw [← h.genuine x hx]
    exact hx
  constructor
  · have hperm : (held.map Prod.fst).Perm (List.range plan.chunks) := by
      rw [List.perm_ext_iff_of_nodup hholds.nodup List.nodup_range]
      intro j
      rw [List.mem_range, ← h.chunks_eq]
      refine ⟨fun hj => ?_, hindices j⟩
      obtain ⟨x, hx, rfl⟩ := List.mem_map.1 hj
      exact hholds.index_lt x hx
    have hlens : (held.map fun x => x.2.length) = (held.map Prod.fst).map (cutLen plan) := by
      rw [List.map_map]
      refine List.map_congr_left fun x hx => ?_
      have hlt := hholds.index_lt x hx
      rw [h.chunks_eq] at hlt
      rw [h.genuine x hx]
      exact hcut.length_cutPiece hlt
    rw [hholds.bytes, hlens, (hperm.map (cutLen plan)).sum_eq]
    exact hcut.sum_cutLen
  · refine hcut.take_eq fun j hj => ?_
    have hlen := hcut.length_cutPiece hj
    rcases h.stride with hzero | hstride
    · -- one piece only, and it is the last of several: the slot is not complete
      obtain ⟨hmany, ⟨hnone, -⟩ | ⟨p, hone, -⟩⟩ := hholds.waits hzero
      · exact absurd hnone h.some_held
      · have harrived := hholds.arrived
        rw [hone, List.length_singleton] at harrived
        omega
    · have hne : slot.chunkSize ≠ 0 := by
        rw [hstride]
        exact hcut.stride_pos.ne'
      have hat := (hholds.placed hne _ (hpiece j hj)).at_place
      rw [hstride, hlen] at hat
      exact hat

/-! ## One call -/

/-- A slot in use stays through a sweep before its deadline. -/
theorem getElem?_expire (hslot : table.partials[i]? = some slot) (hnow : now < slot.expiresAt) :
    (reasmExpire table now).2.partials[i]? = some slot :=
  getElem?_drop_of_not hslot (by simp [UInt64.not_le.2 hnow])

/-- The slot of a message is the one `find` answers. -/
theorem find_eq_some (hok : TableOk table notes) (hslot : table.partials[i]? = some slot)
    (hlive : slot.live = true) : find table slot.sender slot.msg = some (slot, i) := by
  have hof : slot.isOf slot.sender slot.msg = true := Partial.isOf_iff.2 ⟨hlive, rfl, rfl⟩
  cases hfind : find table slot.sender slot.msg with
  | none =>
    have hno := first_eq_none hfind (List.mem_of_getElem? hslot)
    exact absurd (hno.symm.trans hof) (by simp)
  | some x =>
    obtain ⟨hat, hx⟩ := first_eq_some hfind
    obtain ⟨hxlive, hxmsg, hxsender⟩ := Partial.isOf_iff.1 hx
    have hij := hok.one _ _ _ _ hat hslot hxlive hlive hxsender hxmsg
    rw [hij] at hat
    rw [← Option.some.inj (hat.symm.trans hslot), ← hij]

/-- **A piece of the message finds its slot and is taken there.** -/
theorem own_step (hok : TableOk table notes) (hslot : table.partials[i]? = some slot)
    (h : Assembling plan message sender msg limit slot held) (hcut : Cut plan message.length)
    (hc : Genuine plan message sender msg c now) (hnow : now < limit) :
    ∃ slot' held', (reasmAccept table c now).1 = .ok ∧
      (reasmAccept table c now).2.2.partials[i]? = some slot' ∧
      Assembling plan message sender msg limit slot' held' ∧
      (∀ j, j ∈ held'.map Prod.fst ↔ j ∈ held.map Prod.fst ∨ j = c.index) ∧
      ∀ k, (reasmAccept table c now).2.1 = some k ↔
        k = i ∧ (∀ j < plan.chunks, j ∈ held'.map Prod.fst) ∧ c.index ∉ held.map Prod.fst := by
  obtain ⟨hindex, hpayload⟩ := hc.piece hcut
  have hat := getElem?_expire hslot (h.expires_eq ▸ hnow)
  have hswept : TableOk (reasmExpire table now).2 notes := hok.drop _
  have hfind : find (reasmExpire table now).2 c.sender c.msg = some (slot, i) := by
    rw [hc.sender_eq, hc.msg_eq, ← h.sender_eq, ← h.msg_eq]
    exact find_eq_some hswept hat h.live
  have hfor : slotFor (reasmExpire table now).2 c now = .ok (slot, i) := by
    unfold slotFor
    rw [if_neg hc.not_expired, hfind]
    exact if_pos (h.agrees hcut hc.chunks_eq hindex hpayload)
  obtain ⟨out, slot', held', htake, hassembling, hmem, hout⟩ :=
    h.take hcut hc.chunks_eq hindex hpayload
  obtain ⟨hlt, -⟩ := List.getElem?_eq_some_iff.1 hat
  have haccept : reasmAccept table c now = (.ok, if out then some i else none,
      { (reasmExpire table now).2 with
        partials := (reasmExpire table now).2.partials.set i slot' }) := by
    unfold reasmAccept
    rw [hfor]
    show give _ c slot i = _
    rw [give, htake]
  refine ⟨slot', held', by rw [haccept], ?_, hassembling, hmem, fun k => ?_⟩
  · rw [haccept]
    exact List.getElem?_set_self hlt
  · rw [haccept, ← hout]
    show (if out = true then some i else none) = some k ↔ _
    cases out with
    | true => exact ⟨fun hk => ⟨(Option.some.inj hk).symm, rfl⟩, fun hk => congrArg some hk.1.symm⟩
    | false => exact ⟨fun hk => absurd hk (by simp), fun hk => absurd hk.2 (by simp)⟩

/-- **No other call touches the slot**, before its deadline. -/
theorem other_step (hslot : table.partials[i]? = some slot)
    (h : Assembling plan message sender msg limit slot held) {call : ReasmCall}
    (hcall : Delivers plan message sender msg limit call)
    (hother : deliveredIndex sender msg call = none) :
    (reasmStep table call).partials[i]? = some slot ∧ handsOut table call ≠ some i := by
  have hlive := h.live
  cases call with
  | expire now => exact ⟨getElem?_expire hslot (h.expires_eq ▸ hcall), by simp [handsOut]⟩
  | forget s m => exact hcall.elim
  | release j => exact hcall.elim
  | accept c now =>
    have hat := getElem?_expire hslot (h.expires_eq ▸ hcall.1)
    have hkey : ¬ (c.sender = sender ∧ c.msg = msg) := by
      intro hkey
      simp [deliveredIndex, hkey] at hother
    have hcase := slotFor_cases (reasmExpire table now).2 c now
    show (reasmAccept table c now).2.2.partials[i]? = some slot ∧
      (reasmAccept table c now).2.1 ≠ some i
    unfold reasmAccept
    generalize slotFor (reasmExpire table now).2 c now = r at hcase ⊢
    cases hcase with
    | refused err => exact ⟨hat, by simp⟩
    | sized free j hj hfree =>
      have hne := ne_of_free hat hlive hj hfree
      exact ⟨(List.getElem?_set_ne hne).trans hat, by simp⟩
    | opened free j hj hfree hnew hopens =>
      exact give_ne (ne_of_free hat hlive hj hfree) hat c _
    | joined s j hj hof hagrees =>
      refine give_ne ?_ hat c _
      rintro rfl
      obtain ⟨-, hmsg, hsender⟩ := Partial.isOf_iff.1 hof
      rw [Option.some.inj (hj.symm.trans hat)] at hmsg hsender
      exact hkey ⟨hsender.symm.trans h.sender_eq, hmsg.symm.trans h.msg_eq⟩

/-- The search of a message no slot is of, in a table with a free one: that one is opened. -/
theorem slotFor_first {now limit : UInt64}
    (hnew : ∀ slot ∈ table.partials, slot.isOf c.sender c.msg = false)
    (hfree : ∃ slot ∈ table.partials, slot.live = false)
    (hexpires : ¬ (c.expiresAt ≠ 0 ∧ c.expiresAt ≤ now))
    (hlimit : deadline table c.expiresAt now = limit)
    (hopens : ∀ slot ∈ table.partials, Opens table c slot) :
    ∃ slot i, table.partials[i]? = some slot ∧ slot.live = false ∧
      slotFor table c now = .ok (openSlot slot c limit, i) := by
  have hfind : find table c.sender c.msg = none := by
    cases hsome : find table c.sender c.msg with
    | none => rfl
    | some x =>
      obtain ⟨hat, hof⟩ := first_eq_some hsome
      rw [hnew x.1 (List.mem_of_getElem? hat)] at hof
      exact absurd hof (by simp)
  obtain ⟨⟨slot, i⟩, hsome⟩ : ∃ x, table.first (fun slot => !slot.live) = some x := by
    cases hsome : table.first fun slot => !slot.live with
    | some x => exact ⟨x, rfl⟩
    | none =>
      obtain ⟨s, hs, hdead⟩ := hfree
      exact absurd (first_eq_none hsome hs) (by simp [hdead])
  obtain ⟨hat, hdead⟩ := first_eq_some hsome
  obtain ⟨hpos, hmany, hindex, hquota, hsome_payload, hfits⟩ :=
    hopens slot (List.mem_of_getElem? hat)
  refine ⟨slot, i, hat, by simpa using hdead, ?_⟩
  unfold slotFor
  rw [if_neg hexpires, hfind]
  show admitFirst table c (deadline table c.expiresAt now) = _
  unfold admitFirst
  rw [hlimit, if_neg (by omega), if_neg (by omega), if_neg (Nat.not_le.2 hquota), hsome]
  exact if_neg (by omega)

/-- **The first piece takes a free slot.** -/
theorem first_step (hok : TableOk table notes) (hcut : Cut plan message.length)
    (hc : Genuine plan message sender msg c now)
    (hroom : ∀ slot ∈ (reasmExpire table now).2.partials, plan.bufferNeeded ≤ slot.buf.length)
    (hnew : ∀ slot ∈ (reasmExpire table now).2.partials, slot.isOf sender msg = false)
    (hquota : heldBy (reasmExpire table now).2 sender < table.perSenderMax)
    (hfree : ∃ slot ∈ (reasmExpire table now).2.partials, slot.live = false) :
    ∃ i slot', (reasmAccept table c now).1 = .ok ∧
      (reasmAccept table c now).2.2.partials[i]? = some slot' ∧
      Assembling plan message sender msg (deadline table c.expiresAt now) slot'
        [(c.index, c.payload)] ∧
      ∀ k, (reasmAccept table c now).2.1 = some k ↔
        k = i ∧ ∀ j < plan.chunks, j ∈ [c.index] := by
  obtain ⟨hindex, hpayload⟩ := hc.piece hcut
  obtain ⟨hpos, hle, -, hfull⟩ := hcut.cutLen_spec hindex
  have hlen : c.payload.length = cutLen plan c.index := by
    rw [hpayload]
    exact hcut.length_cutPiece hindex
  have hchunks := hc.chunks_eq
  have hmany := hcut.chunks_le
  have hswept : TableOk (reasmExpire table now).2 notes := hok.drop _
  have hopens : ∀ slot ∈ (reasmExpire table now).2.partials,
      Opens (reasmExpire table now).2 c slot := by
    intro slot hslot
    have hfits : c.payload.length ≤ slot.buf.length / c.chunks := by
      rw [hchunks, Nat.le_div_iff_mul_le hcut.pos, hlen]
      calc cutLen plan c.index * plan.chunks ≤ plan.chunkSize * plan.chunks :=
            Nat.mul_le_mul_right _ hle
        _ ≤ slot.buf.length := by rw [← hcut.needed]; exact hroom slot hslot
    exact ⟨by omega, by omega, by omega, by rw [hc.sender_eq]; exact hquota, by omega, hfits⟩
  obtain ⟨slot, i, hat, hdead, hfor⟩ := slotFor_first
    (by rw [hc.sender_eq, hc.msg_eq]; exact hnew) hfree hc.not_expired
    (show deadline (reasmExpire table now).2 c.expiresAt now =
      deadline table c.expiresAt now from rfl) hopens
  have hslot := hopens slot (List.mem_of_getElem? hat)
  have hoffered := hslot.offered (deadline table c.expiresAt now)
  have htake := takePiece_cases
    (hslot.rests (hswept.slots i slot hat) hdead (deadline table c.expiresAt now)) hoffered
  have haccept : reasmAccept table c now = give (reasmExpire table now).2 c
      (openSlot slot c (deadline table c.expiresAt now)) i := by
    unfold reasmAccept
    rw [hfor]
  obtain ⟨hlt, -⟩ := List.getElem?_eq_some_iff.1 hat
  rw [haccept]
  unfold give
  generalize takePiece (openSlot slot c (deadline table c.expiresAt now)) c.index c.payload = r
    at htake ⊢
  cases htake with
  | kept err _ hkept =>
    obtain ⟨hstride, hlast, -⟩ := hkept List.not_mem_nil
    exact absurd (hoffered.fresh hstride rfl).1 hlast
  | added slot' _ hrests hsame hstride =>
    have hchunks' : slot'.chunks = plan.chunks := hsame.chunks.trans hchunks
    refine ⟨i, slot', rfl, List.getElem?_set_self hlt, ⟨hsame.live,
      hsame.sender.trans hc.sender_eq, hsame.msg.trans hc.msg_eq, hchunks', hsame.expiresAt, ?_, hrests, by simp, ?_, ?_⟩,
      fun k => ?_⟩
    · rw [hsame.capacity]
      exact hroom slot (List.mem_of_getElem? hat)
    · intro x hx
      obtain rfl := List.mem_singleton.1 hx
      exact hpayload
    · have hfirst := hcut.firstStride_eq hchunks hindex hlen
      rcases hstride with hkeep | ⟨-, hlast, hset⟩
      · rw [hkeep]
        exact hfirst
      · rw [hset, hlen]
        exact Or.inr (hfull fun hl => hlast (hl.trans hchunks.symm))
    · have hcomplete := hrests.holds.complete_iff
      show (if decide (slot'.arrived = slot'.chunks) = true then some i else none) = some k ↔ _
      rw [← hchunks']
      by_cases hall : slot'.arrived = slot'.chunks
      · rw [if_pos (decide_eq_true hall)]
        exact ⟨fun hk => ⟨(Option.some.inj hk).symm, hcomplete.1 hall⟩,
          fun hk => congrArg some hk.1.symm⟩
      · rw [if_neg (by simp [hall])]
        exact ⟨fun hk => absurd hk (by simp), fun hk => absurd (hcomplete.2 hk.2) hall⟩

/-! ## Every delivery -/

theorem deliveredIndex_eq_some {call : ReasmCall} {index : ℕ}
    (h : deliveredIndex sender msg call = some index) :
    ∃ c now, call = .accept c now ∧ c.sender = sender ∧ c.msg = msg ∧ c.index = index := by
  cases call with
  | accept c now =>
    simp only [deliveredIndex] at h
    split_ifs at h with hkey
    exact ⟨c, now, rfl, hkey.1, hkey.2, Option.some.inj h⟩
  | expire now => simp [deliveredIndex] at h
  | forget s m => simp [deliveredIndex] at h
  | release i => simp [deliveredIndex] at h

/-- Every index of the cut is among the pieces held. -/
def AllHeld (plan : Split) (held : List (ℕ × Bytes)) : Prop :=
  ∀ j < plan.chunks, j ∈ held.map Prod.fst

section

variable (hok : TableOk table notes) (hslot : table.partials[i]? = some slot)
  (h : Assembling plan message sender msg limit slot held) (hcut : Cut plan message.length)
include hok hslot h hcut

/-- **One delivery**: a piece of the message is taken and hands the slot out when it is the
last one missing; any other call leaves the slot. -/
theorem deliver_step {call : ReasmCall} (hcall : Delivers plan message sender msg limit call) :
    ∃ slot' held', (reasmStep table call).partials[i]? = some slot' ∧
      Assembling plan message sender msg limit slot' held' ∧
      (∀ j, j ∈ held'.map Prod.fst ↔
        j ∈ held.map Prod.fst ∨ deliveredIndex sender msg call = some j) ∧
      (handsOut table call = some i ↔ AllHeld plan held' ∧ ¬ AllHeld plan held) ∧
      ∀ c now, call = .accept c now → c.sender = sender → c.msg = msg →
        (reasmAccept table c now).1 = .ok ∧ ∀ k, (reasmAccept table c now).2.1 = some k → k = i := by
  cases hindex : deliveredIndex sender msg call with
  | none =>
    obtain ⟨hkeep, hnone⟩ := other_step hslot h hcall hindex
    refine ⟨slot, held, hkeep, h, fun j => by simp, ?_, ?_⟩
    · exact iff_of_false hnone fun hall => hall.2 hall.1
    · rintro c now rfl hsender hmsg
      simp [deliveredIndex, hsender, hmsg] at hindex
  | some index =>
    obtain ⟨c, now, rfl, hsender, hmsg, rfl⟩ := deliveredIndex_eq_some hindex
    have hc := hcall.2 hsender hmsg
    obtain ⟨slot', held', herr, hslot', h', hmem, hout⟩ := own_step hok hslot h hcut hc hcall.1
    refine ⟨slot', held', hslot', h', fun j => ?_, ?_, ?_⟩
    · rw [hmem, Option.some.injEq]
      exact or_congr_right eq_comm
    · show (reasmAccept table c now).2.1 = some i ↔ _
      rw [hout]
      have hlt := (hc.piece hcut).1
      constructor
      · rintro ⟨-, hall, hnew⟩
        exact ⟨hall, fun hold => hnew (hold c.index hlt)⟩
      · rintro ⟨hall, hmissing⟩
        refine ⟨rfl, hall, fun hheld => hmissing fun j hj => ?_⟩
        rcases (hmem j).1 (hall j hj) with hold | rfl
        · exact hold
        · exact hheld
    · rintro c' now' heq - -
      obtain ⟨rfl, rfl⟩ := ReasmCall.accept.inj heq
      exact ⟨herr, fun k hk => ((hout k).1 hk).1⟩

/-- **Any deliveries** keep the slot on its way. -/
theorem deliver_run {calls : List ReasmCall}
    (hcalls : ∀ call ∈ calls, Delivers plan message sender msg limit call) :
    ∃ notes' slot' held', TableOk (reasmRun table calls) notes' ∧
      (reasmRun table calls).partials[i]? = some slot' ∧
      Assembling plan message sender msg limit slot' held' ∧
      ∀ j, j ∈ held'.map Prod.fst ↔
        j ∈ held.map Prod.fst ∨ j ∈ calls.filterMap (deliveredIndex sender msg) := by
  induction calls using List.reverseRecOn with
  | nil => exact ⟨notes, slot, held, hok, hslot, h, fun j => by simp⟩
  | append_singleton calls call ih =>
    obtain ⟨notes', slot', held', hok', hslot', h', hmem⟩ :=
      ih fun call' hcall' => hcalls call' (List.mem_append_left _ hcall')
    obtain ⟨slot'', held'', hslot'', h'', hmem', -, -⟩ :=
      deliver_step hok' hslot' h' hcut (hcalls call (by simp))
    refine ⟨_, slot'', held'', by rw [reasmRun_append]; exact hok'.step call, ?_, h'',
      fun j => ?_⟩
    · rw [reasmRun_append]
      exact hslot''
    · rw [hmem', hmem, List.filterMap_append, List.mem_append, or_assoc]
      refine or_congr_right (or_congr_right ?_)
      cases hindex : deliveredIndex sender msg call with
      | none => simp [hindex]
      | some index => simp [hindex, eq_comm]

end

/-- A slot with every index, at rest, is the message. -/
theorem Assembling.message_of_allHeld (h : Assembling plan message sender msg limit slot held)
    (hcut : Cut plan message.length) (hall : AllHeld plan held) :
    slot.sender = sender ∧ slot.msg = msg ∧ slot.handed = true ∧ slot.arrived = slot.chunks ∧
      slot.chunks = plan.chunks ∧ slot.bytes = message.length ∧
      slot.buf.take message.length = message := by
  have harrived : slot.arrived = slot.chunks := by
    refine h.rests.holds.complete_iff.2 fun j hj => hall j ?_
    rw [← h.chunks_eq]
    exact hj
  obtain ⟨hbytes, hbuf⟩ := h.complete hcut harrived
  exact ⟨h.sender_eq, h.msg_eq, h.rests.handed_iff.2 harrived, harrived, h.chunks_eq, hbytes, hbuf⟩

/-- **Split then reassemble is the identity.**  In a table reached by any run, whose slots
have the room the plan asks for and which, when the first piece comes, has no slot of the
message, a free slot and quota left for the sender: the pieces of the message, delivered in
any order and number, with pieces of other messages and sweeps between them before the
slot's deadline, are never refused; the slot is handed out on the delivery that completes
the set, on no other, and it holds the message. -/
theorem split_reassembles {slots : List Partial} {perSenderMax : ℕ} {maxHold : UInt64}
    {table : Reasm} (hslots : ∀ slot ∈ slots, ∃ buf, slotInit buf = .ok slot)
    (hinit : reasmInit slots perSenderMax maxHold = .ok table) (before : List ReasmCall)
    {maxPayload : ℕ} (hplan : splitPlan message.length maxPayload = .ok plan) {first : Piece}
    {now : UInt64} (hfirst : Genuine plan message sender msg first now)
    (hroom : ∀ slot ∈ (reasmRun table before).partials, plan.bufferNeeded ≤ slot.buf.length)
    (hnew : ∀ slot ∈ (reasmExpire (reasmRun table before) now).2.partials,
      slot.isOf sender msg = false)
    (hquota : heldBy (reasmExpire (reasmRun table before) now).2 sender < perSenderMax)
    (hfree : ∃ slot ∈ (reasmExpire (reasmRun table before) now).2.partials, slot.live = false)
    {rest : List ReasmCall} (hrest : ∀ call ∈ rest,
      Delivers plan message sender msg (deadline table first.expiresAt now) call) :
    ∃ i, ∀ pre call post, ReasmCall.accept first now :: rest = pre ++ call :: post →
      (∀ c t, call = .accept c t → c.sender = sender → c.msg = msg →
        (reasmAccept (reasmRun table (before ++ pre)) c t).1 = .ok ∧
        ∀ k, (reasmAccept (reasmRun table (before ++ pre)) c t).2.1 = some k → k = i) ∧
      (handsOut (reasmRun table (before ++ pre)) call = some i ↔
        Complete plan sender msg (pre ++ [call]) ∧ ¬ Complete plan sender msg pre) ∧
      (Complete plan sender msg (pre ++ [call]) →
        ∃ slot, (reasmRun table (before ++ (pre ++ [call]))).partials[i]? = some slot ∧
          slot.sender = sender ∧ slot.msg = msg ∧ slot.handed = true ∧
          slot.arrived = slot.chunks ∧ slot.chunks = plan.chunks ∧
          slot.bytes = message.length ∧ slot.buf.take message.length = message) := by
  have hcut := splitPlan_cut hplan
  have hok := watchRun_ok hslots hinit before
  rw [watchRun_fst] at hok
  have htable : table.perSenderMax = perSenderMax := by rw [reasmInit_ok hinit]
  obtain ⟨hmax, hhold⟩ := reasmRun_bounds table before
  have hdeadline : deadline (reasmRun table before) first.expiresAt now =
      deadline table first.expiresAt now := by
    unfold deadline
    rw [hhold]
  have hroom' : ∀ slot ∈ (reasmExpire (reasmRun table before) now).2.partials,
      plan.bufferNeeded ≤ slot.buf.length := by
    intro slot hslot
    obtain ⟨old, hold, rfl⟩ := List.mem_map.1 hslot
    have hle := hroom old hold
    split
    · exact hle
    · exact hle
  obtain ⟨i, slot₁, herr, hslot₁, h₁, hout⟩ := first_step hok hcut hfirst hroom' hnew
    (by rw [hmax, htable]; exact hquota) hfree
  rw [hdeadline] at h₁
  have hindex : deliveredIndex sender msg (.accept first now) = some first.index :=
    if_pos ⟨hfirst.sender_eq, hfirst.msg_eq⟩
  refine ⟨i, fun pre call post hsplit => ?_⟩
  cases pre with
  | nil =>
    -- the first piece itself
    obtain ⟨rfl, rfl⟩ := List.cons.inj hsplit
    have hone : Complete plan sender msg ([] ++ [.accept first now]) ↔
        ∀ j < plan.chunks, j ∈ [first.index] := by
      simp [Complete, hindex]
    have hnone : ¬ Complete plan sender msg [] := by
      intro hall
      exact absurd (hall 0 hcut.pos) (by simp)
    rw [List.append_nil, List.nil_append]
    refine ⟨?_, ?_, ?_⟩
    · rintro c t heq - -
      obtain ⟨rfl, rfl⟩ := ReasmCall.accept.inj heq
      exact ⟨herr, fun k hk => ((hout k).1 hk).1⟩
    · show (reasmAccept _ first now).2.1 = some i ↔ _
      rw [hout]
      exact ⟨fun hall => ⟨hone.2 hall.2, hnone⟩, fun hall => ⟨rfl, hone.1 hall.1⟩⟩
    · intro hall
      refine ⟨slot₁, ?_, h₁.message_of_allHeld hcut (hone.1 hall)⟩
      rw [reasmRun_append]
      exact hslot₁
  | cons c₀ mid =>
    -- a call behind the first piece
    obtain ⟨rfl, hrests⟩ := List.cons.inj hsplit
    have hrest' : rest = mid ++ call :: post := hrests
    have hrun : ∀ calls, reasmRun table (before ++ .accept first now :: calls) =
        reasmRun (reasmAccept (reasmRun table before) first now).2.2 calls := by
      intro calls
      rw [reasmRun_append]
      rfl
    have hmid : ∀ call' ∈ mid, call' ∈ rest := fun call' hcall' => by
      rw [hrest']
      exact List.mem_append_left _ hcall'
    obtain ⟨notes, slot, held, hok', hslot, h, hmem⟩ := deliver_run (hok.accept first now) hslot₁
      h₁ hcut fun call' hcall' => hrest call' (hmid call' hcall')
    obtain ⟨slot', held', hslot', h', hmem', hhands, hown⟩ := deliver_step hok' hslot h hcut
      (hrest call (by rw [hrest']; simp))
    have hbefore : Complete plan sender msg (.accept first now :: mid) ↔ AllHeld plan held := by
      refine forall₂_congr fun j _ => ?_
      rw [hmem, List.filterMap_cons, hindex]
      simp
    have hafter : Complete plan sender msg (.accept first now :: mid ++ [call]) ↔
        AllHeld plan held' := by
      refine forall₂_congr fun j _ => ?_
      rw [hmem', hmem, List.cons_append, List.filterMap_cons, hindex, List.filterMap_append]
      cases hcall : deliveredIndex sender msg call with
      | none => simp [hcall]
      | some index => simp [hcall, eq_comm, or_assoc]
    rw [hrun, hbefore, hafter]
    refine ⟨hown, hhands, fun hall => ⟨slot', ?_, h'.message_of_allHeld hcut hall⟩⟩
    rw [List.cons_append, hrun, reasmRun_append]
    exact hslot'

/-- The hypotheses are met by three bytes in two pieces, the last piece first, in a table of
one slot of four bytes. -/
theorem split_reassembles_lastFirst :
    ∃ (i : ℕ) (slot : Partial),
      (reasmRun ⟨[emptySlot [0, 0, 0, 0]], 1, 9⟩ lastFirst).partials[i]? = some slot ∧
      slot.bytes = 3 ∧ slot.buf.take 3 = [10, 20, 30] := by
  have hinit : reasmInit [emptySlot [0, 0, 0, 0]] 1 9 = .ok ⟨[emptySlot [0, 0, 0, 0]], 1, 9⟩ := rfl
  have hplan : splitPlan ([10, 20, 30] : Bytes).length 2 = .ok ⟨3, 2, 2, 4⟩ := rfl
  have hlast : Genuine ⟨3, 2, 2, 4⟩ [10, 20, 30] 7 1 ⟨7, 1, 1, 2, [30], 0⟩ 5 :=
    ⟨rfl, rfl, rfl, ⟨2, 1, rfl, rfl⟩, Or.inl rfl⟩
  have hother : Genuine ⟨3, 2, 2, 4⟩ [10, 20, 30] 7 1 ⟨7, 1, 0, 2, [10, 20], 0⟩ 6 :=
    ⟨rfl, rfl, rfl, ⟨0, 2, rfl, rfl⟩, Or.inl rfl⟩
  have hrest : ∀ call ∈ [ReasmCall.accept ⟨7, 1, 0, 2, [10, 20], 0⟩ 6],
      Delivers ⟨3, 2, 2, 4⟩ [10, 20, 30] 7 1
        (deadline ⟨[emptySlot [0, 0, 0, 0]], 1, 9⟩ 0 5) call := by
    intro call hcall
    obtain rfl := List.mem_singleton.1 hcall
    exact ⟨by decide, fun _ _ => hother⟩
  obtain ⟨i, hi⟩ := split_reassembles (fun slot hslot => by
      obtain rfl := List.mem_singleton.1 hslot
      exact ⟨⟨[0, 0, 0, 0], by decide⟩, rfl⟩) hinit [] hplan hlast
    (by decide) (by decide) (by decide) ⟨emptySlot [0, 0, 0, 0], by decide, rfl⟩ hrest
  obtain ⟨-, -, hmessage⟩ := hi [.accept ⟨7, 1, 1, 2, [30], 0⟩ 5]
    (.accept ⟨7, 1, 0, 2, [10, 20], 0⟩ 6) [] rfl
  obtain ⟨slot, hslot, -, -, -, -, -, hbytes, hbuf⟩ := hmessage (by unfold Complete; decide)
  exact ⟨i, slot, hslot, hbytes, hbuf⟩

/-- **A full table refuses the message.**  The one slot has the room and the sender its
quota, but a piece of another sender comes first. -/
theorem full_table_refuses :
    splitPlan ([10, 20, 30] : Bytes).length 2 = .ok ⟨3, 2, 2, 4⟩ ∧
    (∀ slot ∈ [emptySlot [0, 0, 0, 0]], 4 ≤ slot.buf.length) ∧
    heldBy ⟨[emptySlot [0, 0, 0, 0]], 1, 9⟩ 7 < 1 ∧
    Lib.load [10, 20, 30] 0 2 = ([10, 20] : Bytes) ∧ splitAt ⟨3, 2, 2, 4⟩ 0 = .ok (0, 2) ∧
    (reasmAccept (reasmRun ⟨[emptySlot [0, 0, 0, 0]], 1, 9⟩
      [.accept ⟨8, 1, 0, 2, [1, 1], 0⟩ 5]) ⟨7, 1, 0, 2, [10, 20], 0⟩ 6).1 = .full := by
  refine ⟨rfl, by decide, by decide, rfl, rfl, by decide⟩

end Chunk
end Fuzznet
