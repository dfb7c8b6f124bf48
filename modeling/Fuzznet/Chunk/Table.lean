/-
# The reassembly table over whole runs

A run is any list of calls of `fzn_reasm_accept`, `fzn_reasm_expire`,
`fzn_reasm_forget` and `fzn_reasm_release`.  A slot does not record the pieces it was
given nor when its first one came, so a run carries a `Note` beside each slot: the
pieces held, in order, and the `now` of the piece that opened the slot.  A note is
read off the table before and behind each call (`noteAccept`); no call reads it.

`TableOk` is the invariant: every live slot holds what its note says, no message has
two slots and no sender more than its quota.  Each call writes at most one slot
behind a sweep, so it is enough to say when a slot may be dropped, written in place
or opened (`TableOk.drop`, `TableOk.rewrite`, `TableOk.openAt`).
-/

import Fuzznet.Chunk.Slot
import Fuzznet.Lib.Runs
import Fuzznet.Lib.Slots

namespace Fuzznet
namespace Chunk

open Wire

/-- What a caller may ask of a table; a slot is released by its place. -/
inductive ReasmCall
  | accept (c : Piece) (now : UInt64)
  | expire (now : UInt64)
  | forget (sender : Bytes32) (msg : UInt32)
  | release (i : ℕ)
  deriving DecidableEq, Repr

/-- The table behind one call. -/
def reasmStep (table : Reasm) : ReasmCall → Reasm
  | .accept c now => (reasmAccept table c now).2.2
  | .expire now => (reasmExpire table now).2
  | .forget sender msg => (reasmForget table sender msg).2
  | .release i =>
    match table.partials[i]? with
    | some slot => { table with partials := table.partials.set i (release slot) }
    | none => table

/-- The slot a call hands out. -/
def handsOut (table : Reasm) : ReasmCall → Option ℕ
  | .accept c now => (reasmAccept table c now).2.1
  | _ => none

/-- The table behind a run. -/
def reasmRun (table : Reasm) (calls : List ReasmCall) : Reasm := calls.foldl reasmStep table

theorem reasmRun_append (table : Reasm) (pre post : List ReasmCall) :
    reasmRun table (pre ++ post) = reasmRun (reasmRun table pre) post := List.foldl_append

/-- What is known of a slot beside its bytes: the pieces it holds and when the first
of them came. -/
structure Note where
  held : List (ℕ × Bytes)
  since : UInt64
  deriving DecidableEq, Repr

/-- The note of a slot behind an accepted piece: a slot that went live was opened by
it, and a slot whose bit was set by it holds it too. -/
def noteAccept (before after : Option Partial) (c : Piece) (now : UInt64) (note : Note) : Note :=
  match before, after with
  | some b, some a =>
    if a.live = true ∧ b.live = false then ⟨[(c.index, c.payload)], now⟩
    else if seenGet a c.index = true ∧ seenGet b c.index = false then
      { note with held := note.held ++ [(c.index, c.payload)] }
    else note
  | _, _ => note

/-- The notes behind one call; a slot is compared with what the sweep left of it. -/
def noteStep (table : Reasm) (notes : ℕ → Note) : ReasmCall → ℕ → Note
  | .accept c now => fun i =>
    noteAccept (reasmExpire table now).2.partials[i]? (reasmAccept table c now).2.2.partials[i]? c
      now (notes i)
  | _ => notes

/-- The table and the notes behind a run. -/
def watchRun (table : Reasm) (calls : List ReasmCall) : Reasm × (ℕ → Note) :=
  calls.foldl (fun w call => (reasmStep w.1 call, noteStep w.1 w.2 call))
    (table, fun _ => ⟨[], 0⟩)

theorem watchRun_fst (table : Reasm) (calls : List ReasmCall) :
    (watchRun table calls).1 = reasmRun table calls := by
  induction calls using List.reverseRecOn with
  | nil => rfl
  | append_singleton calls call ih =>
    rw [watchRun, List.foldl_append, reasmRun_append, ← ih]
    rfl

/-! ## The invariant -/

/-- A slot and its note agree. -/
structure SlotOk (maxHold : UInt64) (slot : Partial) (note : Note) : Prop where
  size : slot.buf.length < sizeMod
  free : slot.live = false → slot.handed = false
  rests : slot.live = true → Rests slot note.held
  some_held : slot.live = true → note.held ≠ []
  expires : slot.live = true → slot.expiresAt.toNat ≤ note.since.toNat + maxHold.toNat

/-- The table keeps its bounds, and every slot agrees with its note. -/
structure TableOk (table : Reasm) (notes : ℕ → Note) : Prop where
  slots : ∀ i slot, table.partials[i]? = some slot → SlotOk table.maxHold slot (notes i)
  one : ∀ (i j : ℕ) (s s' : Partial), table.partials[i]? = some s →
    table.partials[j]? = some s' →
    s.live = true → s'.live = true → s.sender = s'.sender → s.msg = s'.msg → i = j
  quota : ∀ sender, heldBy table sender ≤ table.perSenderMax

variable {table : Reasm} {slot : Partial} {i : ℕ} {notes : ℕ → Note} {c : Piece} {now : UInt64}

theorem Partial.isOf_iff {sender : Bytes32} {msg : UInt32} :
    slot.isOf sender msg = true ↔ slot.live = true ∧ slot.msg = msg ∧ slot.sender = sender := by
  simp [Partial.isOf, and_assoc]

theorem noteAccept_self (slot : Option Partial) (c : Piece) (now : UInt64) (note : Note) :
    noteAccept slot slot c now note = note := by
  cases slot with
  | none => rfl
  | some s =>
    show (if _ then _ else if _ then _ else _) = note
    rw [if_neg (fun h => absurd (h.1.symm.trans h.2) Bool.noConfusion),
      if_neg (fun h => absurd (h.1.symm.trans h.2) Bool.noConfusion)]

theorem release_live (slot : Partial) : (release slot).live = false := rfl

variable {maxHold : UInt64} {note : Note}

/-- A slot released agrees with any note. -/
theorem SlotOk.released (h : SlotOk maxHold slot note) :
    SlotOk maxHold (release slot) note where
  size := h.size
  free := fun _ => rfl
  rests := fun hl => absurd hl Bool.false_ne_true
  some_held := fun hl => absurd hl Bool.false_ne_true
  expires := fun hl => absurd hl Bool.false_ne_true

theorem getElem?_drop {p : Partial → Bool} {s : Partial}
    (h : (table.drop p).2.partials[i]? = some s) (hlive : s.live = true) :
    table.partials[i]? = some s ∧ p s = false := by
  have hmap : (table.partials[i]?).map (fun slot => if p slot then release slot else slot) =
      some s := by
    rw [← List.getElem?_map]
    exact h
  obtain ⟨slot, hslot, heq⟩ := Option.map_eq_some_iff.1 hmap
  by_cases hp : p slot = true
  · rw [if_pos hp] at heq
    rw [← heq, release_live] at hlive
    exact absurd hlive Bool.false_ne_true
  · rw [if_neg hp] at heq
    obtain rfl := heq
    exact ⟨hslot, Bool.eq_false_iff.2 hp⟩

/-- **Slots may be released.** -/
theorem TableOk.drop (h : TableOk table notes) (p : Partial → Bool) :
    TableOk (table.drop p).2 notes := by
  refine ⟨fun i s hs => ?_, fun i j s s' hs hs' hl hl' => ?_, fun sender => ?_⟩
  · have hmap : (table.partials[i]?).map (fun slot => if p slot then release slot else slot)
        = some s := by
      rw [← List.getElem?_map]
      exact hs
    obtain ⟨slot, hslot, heq⟩ := Option.map_eq_some_iff.1 hmap
    have hok := h.slots i slot hslot
    by_cases hp : p slot = true
    · rw [if_pos hp] at heq
      obtain rfl := heq
      exact hok.released
    · rw [if_neg hp] at heq
      obtain rfl := heq
      exact hok
  · exact h.one i j s s' (getElem?_drop hs hl).1 (getElem?_drop hs' hl').1 hl hl'
  · refine Nat.le_trans ?_ (h.quota sender)
    show List.countP _ (List.map _ table.partials) ≤ List.countP _ table.partials
    rw [List.countP_map]
    refine List.countP_mono_left fun slot _ hslot => ?_
    rw [Function.comp_apply] at hslot
    by_cases hp : p slot = true
    · rw [if_pos hp] at hslot
      simp [release_live] at hslot
    · rwa [if_neg hp] at hslot

theorem getElem?_set_cases {slots : List Partial} {i j : ℕ} {slot' s : Partial}
    (h : (slots.set i slot')[j]? = some s) : j = i ∧ s = slot' ∨ j ≠ i ∧ slots[j]? = some s := by
  rw [List.getElem?_set] at h
  by_cases hij : i = j
  · rw [if_pos hij] at h
    split at h
    · exact Or.inl ⟨hij.symm, (Option.some.inj h).symm⟩
    · exact absurd h (by simp)
  · rw [if_neg hij] at h
    exact Or.inr ⟨fun hji => hij hji.symm, h⟩

/-- The notes agree slot by slot behind a write. -/
theorem TableOk.slots_set (h : TableOk table notes) {slot' : Partial} {note' : Note}
    (hok : SlotOk table.maxHold slot' note') (j : ℕ) (s : Partial)
    (hs : (table.partials.set i slot')[j]? = some s) :
    SlotOk table.maxHold s (Function.update notes i note' j) := by
  rcases getElem?_set_cases hs with ⟨rfl, rfl⟩ | ⟨hne, hs⟩
  · rw [Function.update_self]
    exact hok
  · rw [Function.update_of_ne hne]
    exact h.slots j s hs

section

variable {slot slot' : Partial} {note' : Note} (h : TableOk table notes)
  (hslot : table.partials[i]? = some slot) (hok : SlotOk table.maxHold slot' note')
include h hslot hok

/-- **A slot may be written in place**, its message kept. -/
theorem TableOk.rewrite (hkey : slot'.live = true →
      slot.live = true ∧ slot'.sender = slot.sender ∧ slot'.msg = slot.msg) :
    TableOk { table with partials := table.partials.set i slot' }
      (Function.update notes i note') := by
  refine ⟨h.slots_set hok, fun j k s s' hs hs' hl hl' hsender hmsg => ?_, fun sender => ?_⟩
  · rcases getElem?_set_cases hs with ⟨rfl, rfl⟩ | ⟨-, hold⟩ <;>
      rcases getElem?_set_cases hs' with ⟨rfl, rfl⟩ | ⟨-, hold'⟩
    · rfl
    · obtain ⟨hlive, hse, hme⟩ := hkey hl
      exact h.one _ _ slot s' hslot hold' hlive hl' (hse ▸ hsender) (hme ▸ hmsg)
    · obtain ⟨hlive, hse, hme⟩ := hkey hl'
      exact h.one _ _ s slot hold hslot hl hlive (hse ▸ hsender) (hme ▸ hmsg)
    · exact h.one j k s s' hold hold' hl hl' hsender hmsg
  · refine Nat.le_trans ?_ (h.quota sender)
    have hcount := Lib.countP_set_slot hslot slot' fun s => s.live && s.sender == sender
    show List.countP _ (table.partials.set i slot') ≤ List.countP _ table.partials
    by_cases hp' : (slot'.live && slot'.sender == sender) = true
    · have hp : (slot.live && slot.sender == sender) = true := by
        have hand := Bool.and_eq_true_iff.1 hp'
        obtain ⟨hlive, hse, -⟩ := hkey hand.1
        rw [hlive, ← hse, hand.2]
        rfl
      rw [if_pos hp, if_pos hp'] at hcount
      omega
    · rw [if_neg hp'] at hcount
      omega

/-- **A free slot may be opened** for a message that has none, within the quota. -/
theorem TableOk.openAt (hnew : ∀ s ∈ table.partials, s.isOf slot'.sender slot'.msg = false)
    (hquota : heldBy table slot'.sender < table.perSenderMax) :
    TableOk { table with partials := table.partials.set i slot' }
      (Function.update notes i note') := by
  have habsent : ∀ (j : ℕ) (s : Partial), table.partials[j]? = some s → s.live = true →
      s.sender = slot'.sender → s.msg = slot'.msg → False := by
    intro j s hs hl hsender hmsg
    have hof := Partial.isOf_iff.2 ⟨hl, hmsg, hsender⟩
    rw [hnew s (List.mem_of_getElem? hs)] at hof
    exact absurd hof Bool.false_ne_true
  refine ⟨h.slots_set hok, fun j k s s' hs hs' hl hl' hsender hmsg => ?_, fun sender => ?_⟩
  · rcases getElem?_set_cases hs with ⟨rfl, rfl⟩ | ⟨-, hold⟩ <;>
      rcases getElem?_set_cases hs' with ⟨rfl, rfl⟩ | ⟨-, hold'⟩
    · rfl
    · exact (habsent k s' hold' hl' hsender.symm hmsg.symm).elim
    · exact (habsent j s hold hl hsender hmsg).elim
    · exact h.one j k s s' hold hold' hl hl' hsender hmsg
  · have hcount := Lib.countP_set_slot hslot slot' fun s => s.live && s.sender == sender
    have hbefore := h.quota sender
    show List.countP _ (table.partials.set i slot') ≤ table.perSenderMax
    rw [heldBy] at hbefore
    by_cases hsender : slot'.sender = sender
    · rw [hsender, heldBy] at hquota
      split_ifs at hcount <;> omega
    · have hp' : ¬ (slot'.live && slot'.sender == sender) = true := by simp [hsender]
      rw [if_neg hp'] at hcount
      omega

end

/-! ## One call -/

/-- A slot's deadline is at most `max_hold` behind the clock. -/
theorem toNat_deadline_le (table : Reasm) (expiresAt now : UInt64) :
    (deadline table expiresAt now).toNat ≤ now.toNat + table.maxHold.toNat := by
  have hhold : (holdUntil now table.maxHold).toNat ≤ now.toNat + table.maxHold.toNat :=
    Frame.toNat_horizonOf_le now table.maxHold
  unfold deadline
  split
  · exact hhold
  · split
    case isTrue hlt => exact Nat.le_trans (UInt64.lt_iff_toNat_lt.1 hlt).le hhold
    case isFalse => exact hhold

/-- The notes behind a piece that wrote the slot at `i`. -/
theorem noteStep_set {slot slot' : Partial}
    (hslot : (reasmExpire table now).2.partials[i]? = some slot)
    (hset : (reasmAccept table c now).2.2.partials =
      (reasmExpire table now).2.partials.set i slot') :
    noteStep table notes (.accept c now) =
      Function.update notes i (noteAccept (some slot) (some slot') c now (notes i)) := by
  obtain ⟨hi, -⟩ := List.getElem?_eq_some_iff.1 hslot
  funext j
  show noteAccept _ (reasmAccept table c now).2.2.partials[j]? c now (notes j) = _
  rw [hset]
  by_cases hj : j = i
  · subst hj
    rw [Function.update_self, hslot, List.getElem?_set_self hi]
  · rw [Function.update_of_ne hj, List.getElem?_set_ne (Ne.symm hj), noteAccept_self]

/-- The note of a slot that took a new piece. -/
theorem noteAccept_added {slot slot' : Partial} {held : List (ℕ × Bytes)}
    (hlive : slot'.live = slot.live) (hnew : seenGet slot c.index = false)
    (hrests : Rests slot' (held ++ [(c.index, c.payload)])) :
    noteAccept (some slot) (some slot') c now note =
      { note with held := note.held ++ [(c.index, c.payload)] } := by
  have hseen : seenGet slot' c.index = true :=
    (hrests.holds.seen_iff c.index).2 (by simp)
  show (if _ then _ else if _ then _ else _) = _
  rw [if_neg (fun h => absurd ((hlive ▸ h.1).symm.trans h.2) Bool.noConfusion),
    if_pos ⟨hseen, hnew⟩]

/-- A slot just opened is at rest, with nothing in it. -/
theorem Opens.rests (hopens : Opens table c slot) (hok : SlotOk maxHold slot note)
    (hfree : slot.live = false) (expiresAt : UInt64) : Rests (openSlot slot c expiresAt) [] :=
  ⟨openSlot_holds hopens hok.size expiresAt,
    iff_of_false (fun hh => absurd ((hok.free hfree).symm.trans hh) (by simp))
      (fun hz => absurd hz.symm hopens.pos.ne')⟩

/-- A piece taken into the live slot of its message. -/
theorem TableOk.joined (h : TableOk table notes) (hslot : table.partials[i]? = some slot)
    (hof : slot.isOf c.sender c.msg = true) (hagrees : agrees slot c = true) :
    TableOk { table with
        partials := table.partials.set i (takePiece slot c.index c.payload).2.2 }
      (Function.update notes i (noteAccept (some slot)
        (some (takePiece slot c.index c.payload).2.2) c now (notes i))) := by
  obtain ⟨hlive, hmsg, hsender⟩ := Partial.isOf_iff.1 hof
  have hok := h.slots i slot hslot
  have hrests := hok.rests hlive
  have htake := takePiece_cases hrests
    (offered_of_agrees hrests.holds (hok.some_held hlive) hagrees)
  generalize takePiece slot c.index c.payload = r at htake ⊢
  cases htake with
  | kept err _ _ =>
    rw [noteAccept_self]
    exact h.rewrite hslot hok fun _ => ⟨hlive, rfl, rfl⟩
  | added slot' hnew hrests' hsame _ =>
    have hunseen : seenGet slot c.index = false :=
      Bool.eq_false_iff.2 fun hs => hnew ((hrests.holds.seen_iff _).1 hs)
    rw [noteAccept_added hsame.live hunseen hrests']
    refine h.rewrite hslot ⟨hrests'.holds.size, ?_, fun _ => hrests', ?_, ?_⟩
      fun _ => ⟨hlive, hsame.sender, hsame.msg⟩
    · intro hl
      exact absurd (hl.symm.trans (hsame.live.trans hlive)) (by simp)
    · exact fun _ => by simp
    · intro _
      show slot'.expiresAt.toNat ≤ (notes i).since.toNat + _
      rw [hsame.expiresAt]
      exact hok.expires hlive

/-- A piece taken into the free slot it opens. -/
theorem TableOk.opened (h : TableOk table notes) (hslot : table.partials[i]? = some slot)
    (hfree : slot.live = false) (hnew : ∀ s ∈ table.partials, s.isOf c.sender c.msg = false)
    (hopens : Opens table c slot) {d : UInt64} (hdead : d.toNat ≤ now.toNat + table.maxHold.toNat) :
    TableOk { table with
        partials := table.partials.set i (takePiece (openSlot slot c d) c.index c.payload).2.2 }
      (Function.update notes i (noteAccept (some slot)
        (some (takePiece (openSlot slot c d) c.index c.payload).2.2) c now (notes i))) := by
  have hok := h.slots i slot hslot
  have hoffered := hopens.offered d
  have htake := takePiece_cases (hopens.rests hok hfree d) hoffered
  generalize takePiece (openSlot slot c d) c.index c.payload = r at htake ⊢
  cases htake with
  | kept err _ hkept =>
    obtain ⟨hstride, hlast, -⟩ := hkept List.not_mem_nil
    exact absurd (hoffered.fresh hstride rfl).1 hlast
  | added slot' _ hrests' hsame _ =>
    have hlive : slot'.live = true := hsame.live
    have hnote : noteAccept (some slot) (some slot') c now (notes i) =
        ⟨[(c.index, c.payload)], now⟩ := if_pos ⟨hlive, hfree⟩
    rw [hnote]
    refine h.openAt hslot ⟨hrests'.holds.size, ?_, fun _ => hrests', ?_, ?_⟩ ?_ ?_
    · intro hl
      exact absurd (hl.symm.trans hlive) (by simp)
    · exact fun _ => by simp
    · intro _
      rw [hsame.expiresAt]
      exact hdead
    · rw [hsame.sender, hsame.msg]
      exact hnew
    · rw [hsame.sender]
      exact hopens.quota

/-- **A piece keeps the invariant.**  One slot is written behind the sweep: the free one
the piece opens, or the live one of its message. -/
theorem TableOk.accept (h : TableOk table notes) (c : Piece) (now : UInt64) :
    TableOk (reasmAccept table c now).2.2 (noteStep table notes (.accept c now)) := by
  have hswept : TableOk (reasmExpire table now).2 notes := h.drop _
  have hcase := slotFor_cases (reasmExpire table now).2 c now
  generalize hslotFor : slotFor (reasmExpire table now).2 c now = r at hcase
  cases hcase with
  | refused err =>
    have haccept : reasmAccept table c now = (err, none, (reasmExpire table now).2) := by
      rw [reasmAccept, hslotFor]
    have hnotes : noteStep table notes (.accept c now) = notes := by
      funext i
      show noteAccept _ (reasmAccept table c now).2.2.partials[i]? c now (notes i) = notes i
      rw [haccept, noteAccept_self]
    rw [haccept, hnotes]
    exact hswept
  | sized slot i hslot hfree =>
    have hset : (reasmAccept table c now).2.2 = { (reasmExpire table now).2 with
        partials := (reasmExpire table now).2.partials.set i
          { slot with chunkSize := firstStride c } } := by
      rw [reasmAccept, hslotFor]
    have hok := hswept.slots i slot hslot
    rw [noteStep_set hslot (congrArg Reasm.partials hset), hset]
    exact hswept.rewrite hslot ⟨hok.size, hok.free,
      fun hl => absurd (hfree.symm.trans hl) (by simp),
      fun hl => absurd (hfree.symm.trans hl) (by simp),
      fun hl => absurd (hfree.symm.trans hl) (by simp)⟩
      fun hl => absurd (hfree.symm.trans hl) (by simp)
  | joined slot i hslot hof hagrees =>
    have hset : (reasmAccept table c now).2.2 = { (reasmExpire table now).2 with
        partials := (reasmExpire table now).2.partials.set i
          (takePiece slot c.index c.payload).2.2 } := by
      rw [reasmAccept, hslotFor]
      rfl
    rw [noteStep_set hslot (congrArg Reasm.partials hset), hset]
    exact hswept.joined hslot hof hagrees
  | opened slot i hslot hfree hnew hopens =>
    have hset : (reasmAccept table c now).2.2 = { (reasmExpire table now).2 with
        partials := (reasmExpire table now).2.partials.set i
          (takePiece (openSlot slot c (deadline (reasmExpire table now).2 c.expiresAt now))
            c.index c.payload).2.2 } := by
      rw [reasmAccept, hslotFor]
      rfl
    rw [noteStep_set hslot (congrArg Reasm.partials hset), hset]
    exact hswept.opened hslot hfree hnew hopens (toNat_deadline_le _ _ _)

/-- **Every call keeps the invariant.** -/
theorem TableOk.step (h : TableOk table notes) (call : ReasmCall) :
    TableOk (reasmStep table call) (noteStep table notes call) := by
  cases call with
  | accept c now => exact h.accept c now
  | expire now => exact h.drop _
  | forget sender msg => exact h.drop _
  | release i =>
    show TableOk (match table.partials[i]? with | some slot => _ | none => _) notes
    cases hslot : table.partials[i]? with
    | none => exact h
    | some slot =>
      have hok := h.slots i slot hslot
      have hset := h.rewrite hslot (hok.released) fun hl => absurd hl Bool.false_ne_true
      rwa [Function.update_eq_self] at hset

/-- No call changes the bounds of the table. -/
theorem reasmAccept_bounds (table : Reasm) (c : Piece) (now : UInt64) :
    (reasmAccept table c now).2.2.perSenderMax = table.perSenderMax ∧
      (reasmAccept table c now).2.2.maxHold = table.maxHold := by
  have hcase := slotFor_cases (reasmExpire table now).2 c now
  unfold reasmAccept
  generalize slotFor (reasmExpire table now).2 c now = r at hcase ⊢
  cases hcase <;> exact ⟨rfl, rfl⟩

theorem reasmStep_bounds (table : Reasm) (call : ReasmCall) :
    (reasmStep table call).perSenderMax = table.perSenderMax ∧
      (reasmStep table call).maxHold = table.maxHold := by
  cases call with
  | accept c now => exact reasmAccept_bounds table c now
  | expire now => exact ⟨rfl, rfl⟩
  | forget sender msg => exact ⟨rfl, rfl⟩
  | release i =>
    cases hslot : table.partials[i]? with
    | none => simp [reasmStep, hslot]
    | some slot => simp [reasmStep, hslot]

theorem reasmRun_bounds (table : Reasm) (calls : List ReasmCall) :
    (reasmRun table calls).perSenderMax = table.perSenderMax ∧
      (reasmRun table calls).maxHold = table.maxHold := by
  refine Lib.foldl_induction (P := fun t : Reasm => t.perSenderMax = table.perSenderMax ∧
    t.maxHold = table.maxHold) (fun pre call _ ih => ?_) ⟨rfl, rfl⟩
  obtain ⟨hmax, hhold⟩ := reasmStep_bounds (pre.foldl reasmStep table) call
  exact ⟨hmax.trans ih.1, hhold.trans ih.2⟩

section

variable {slots : List Partial} {perSenderMax : ℕ}
  (hslots : ∀ slot ∈ slots, ∃ buf, slotInit buf = .ok slot)
  (hinit : reasmInit slots perSenderMax maxHold = .ok table)
include hslots hinit

/-- An initialised table, its slots given their buffers, keeps its bounds. -/
theorem TableOk.init (notes : ℕ → Note) : TableOk table notes := by
  have hempty : ∀ slot ∈ table.partials, ∃ buf : Buffer, slot = emptySlot buf.bytes := by
    intro slot hslot
    rw [reasmInit_ok hinit] at hslot
    obtain ⟨buf, hbuf⟩ := hslots slot hslot
    exact ⟨buf, slotInit_ok hbuf⟩
  have hdead : ∀ slot ∈ table.partials, slot.live = false := by
    intro slot hslot
    obtain ⟨buf, rfl⟩ := hempty slot hslot
    rfl
  refine ⟨fun i slot hslot => ?_, fun i j s s' hs _ hl => ?_, fun sender => ?_⟩
  · obtain ⟨buf, rfl⟩ := hempty slot (List.mem_of_getElem? hslot)
    exact ⟨buf.size, fun _ => rfl, fun hl => absurd hl Bool.false_ne_true,
      fun hl => absurd hl Bool.false_ne_true, fun hl => absurd hl Bool.false_ne_true⟩
  · exact absurd ((hdead s (List.mem_of_getElem? hs)).symm.trans hl) (by simp)
  · have hzero : heldBy table sender = 0 := by
      refine List.countP_eq_zero.2 fun slot hslot => ?_
      simp [hdead slot hslot]
    rw [hzero]
    exact Nat.zero_le _

/-- **The invariant holds behind every run.** -/
theorem watchRun_ok (calls : List ReasmCall) :
    TableOk (watchRun table calls).1 (watchRun table calls).2 := by
  exact Lib.foldl_induction (P := fun w : Reasm × (ℕ → Note) => TableOk w.1 w.2)
    (fun _ call _ ih => ih.step call) (TableOk.init hslots hinit _)

end

/-! ## What is written -/

/-- Every write of one piece lies inside the slot's buffer, and the check in front of
the copy is not what keeps it there. -/
structure WritesFit (slot : Partial) (index : ℕ) (payload : Bytes) : Prop where
  park : ∀ err slot', beforeGuard slot index payload = .done err slot' → slot' ≠ slot →
    payload.length ≤ slot.buf.length
  move : ∀ slot', beforeGuard slot index payload = .guard slot' → slot.chunkSize = 0 →
    (slot.chunks - 1) * slot'.chunkSize + slot.parked ≤ slot.buf.length
  place : ∀ slot', beforeGuard slot index payload = .guard slot' →
    index * slot'.chunkSize + payload.length ≤ slot'.buf.length
  guard : ∀ slot', beforeGuard slot index payload = .guard slot' →
    guardTaken slot' index payload = false

theorem writesFit_of_offered {held : List (ℕ × Bytes)} {index : ℕ} {payload : Bytes}
    (h : SlotHolds slot held) (hoff : Offered slot index payload) :
    WritesFit slot index payload := by
  refine ⟨fun err slot' hdone hne => ?_, fun slot' hguard hzero => ?_, fun slot' hguard => ?_,
    fun slot' hguard => ?_⟩
  · unfold beforeGuard at hdone
    split_ifs at hdone
    case pos hzero hlast hparked =>
      exact Nat.le_trans (Nat.le_mul_of_pos_right _ h.pos) (hoff.fresh hzero hparked).2
    all_goals exact absurd (Reached.done.inj hdone).2.symm hne
  · obtain ⟨hholds, -, -, hsame, -, -, -, hparked, -⟩ := beforeGuard_guard h hoff hguard
    have hfit := hholds.stride_le
    have hpos := h.pos
    have hlast : (slot.chunks - 1) * slot'.chunkSize + slot'.chunkSize
        = slot'.chunkSize * slot.chunks := by
      rw [← Nat.succ_mul, Nat.mul_comm, Nat.succ_eq_add_one, Nat.sub_add_cancel hpos]
    rw [hsame.chunks, hsame.capacity] at hfit
    have hle := hparked hzero
    omega
  · obtain ⟨hholds, -, hfits, -⟩ := beforeGuard_guard h hoff hguard
    exact hholds.fits_buf hfits
  · obtain ⟨hholds, -, hfits, -⟩ := beforeGuard_guard h hoff hguard
    exact guardTaken_eq_false hholds hfits

theorem TableOk.writesFit (h : TableOk table notes)
    (hslot : slotFor (reasmExpire table now).2 c now = .ok (slot, i)) :
    WritesFit slot c.index c.payload := by
  have hswept : TableOk (reasmExpire table now).2 notes := h.drop _
  have hcase := slotFor_cases (reasmExpire table now).2 c now
  rw [hslot] at hcase
  cases hcase with
  | opened slot i hat hfree hnew hopens =>
    have hok := hswept.slots i slot hat
    exact writesFit_of_offered (hopens.rests hok hfree _).holds (hopens.offered _)
  | joined slot i hat hof hagrees =>
    have hok := hswept.slots i slot hat
    have hlive := (Partial.isOf_iff.1 hof).1
    have hrests := hok.rests hlive
    exact writesFit_of_offered hrests.holds
      (offered_of_agrees hrests.holds (hok.some_held hlive) hagrees)

/-! ## A slot handed out -/

theorem SlotOk.live_of_handed (h : SlotOk maxHold slot note) (hhanded : slot.handed = true) :
    slot.live = true := by
  cases hlive : slot.live with
  | true => rfl
  | false => exact absurd ((h.free hlive).symm.trans hhanded) (by simp)

theorem getElem?_drop_of_not {p : Partial → Bool} (hslot : table.partials[i]? = some slot)
    (hp : p slot = false) : (table.drop p).2.partials[i]? = some slot := by
  show (table.partials.map _)[i]? = some slot
  rw [List.getElem?_map, hslot, Option.map_some, hp]
  rfl

/-- A slot in the caller's hands is not swept. -/
theorem getElem?_expire_handed (now : UInt64) (hslot : table.partials[i]? = some slot)
    (hhanded : slot.handed = true) : (reasmExpire table now).2.partials[i]? = some slot :=
  getElem?_drop_of_not hslot (by simp [hhanded])

/-- A piece given to another slot leaves slot `i`. -/
theorem give_ne {i j : ℕ} (hne : j ≠ i) (hat : table.partials[i]? = some slot) (c : Piece)
    (s : Partial) :
    (give table c s j).2.2.partials[i]? = some slot ∧ (give table c s j).2.1 ≠ some i := by
  refine ⟨(List.getElem?_set_ne hne).trans hat, ?_⟩
  show (if _ then some j else none) ≠ some i
  split <;> simp [hne]

/-- A free slot is not a live one. -/
theorem ne_of_free {i j : ℕ} {slot free : Partial} (hat : table.partials[i]? = some slot)
    (hlive : slot.live = true) (hj : table.partials[j]? = some free) (hfree : free.live = false) :
    j ≠ i := by
  rintro rfl
  rw [Option.some.inj (hj.symm.trans hat), hlive] at hfree
  exact absurd hfree (by simp)

/-- **No piece touches a slot handed out**, nor hands it out again. -/
theorem TableOk.accept_handed (h : TableOk table notes) (hslot : table.partials[i]? = some slot)
    (hhanded : slot.handed = true) (c : Piece) (now : UInt64) :
    (reasmAccept table c now).2.2.partials[i]? = some slot ∧
      (reasmAccept table c now).2.1 ≠ some i := by
  have hswept : TableOk (reasmExpire table now).2 notes := h.drop _
  have hat := getElem?_expire_handed now hslot hhanded
  have hok := hswept.slots i slot hat
  have hlive := hok.live_of_handed hhanded
  have hcase := slotFor_cases (reasmExpire table now).2 c now
  unfold reasmAccept
  generalize slotFor (reasmExpire table now).2 c now = r at hcase ⊢
  cases hcase with
  | refused err => exact ⟨hat, by simp⟩
  | sized free j hj hfree =>
    have hne := ne_of_free hat hlive hj hfree
    exact ⟨(List.getElem?_set_ne hne).trans hat, by simp⟩
  | opened free j hj hfree hnew hopens =>
    exact give_ne (ne_of_free hat hlive hj hfree) hat c _
  | joined slot' j hj hof hagrees =>
    by_cases hne : j = i
    · subst hne
      obtain rfl : slot' = slot := Option.some.inj (hj.symm.trans hat)
      have hrests := hok.rests hlive
      have hoff := offered_of_agrees hrests.holds (hok.some_held hlive) hagrees
      have htake := takePiece_cases hrests hoff
      obtain ⟨hlt, -⟩ := List.getElem?_eq_some_iff.1 hj
      show (give (reasmExpire table now).2 c slot' j).2.2.partials[j]? = some slot' ∧
        (give (reasmExpire table now).2 c slot' j).2.1 ≠ some j
      unfold give
      generalize takePiece slot' c.index c.payload = r at htake ⊢
      cases htake with
      | kept err _ _ => exact ⟨List.getElem?_set_self hlt, by simp⟩
      | added slot'' hnew _ _ _ =>
        have hall := hrests.holds.seen_of_complete (hrests.handed_iff.1 hhanded) hoff.index_lt
        exact absurd ((hrests.holds.seen_iff _).1 hall) hnew
    · exact give_ne hne hat c _

/-- **Only its release touches a slot handed out.** -/
theorem TableOk.step_handed (h : TableOk table notes) (hslot : table.partials[i]? = some slot)
    (hhanded : slot.handed = true) {call : ReasmCall} (hcall : call ≠ .release i) :
    (reasmStep table call).partials[i]? = some slot ∧ handsOut table call ≠ some i := by
  cases call with
  | accept c now => exact h.accept_handed hslot hhanded c now
  | expire now => exact ⟨getElem?_expire_handed now hslot hhanded, by simp [handsOut]⟩
  | forget sender msg =>
    exact ⟨getElem?_drop_of_not hslot (by simp [hhanded]), by simp [handsOut]⟩
  | release j =>
    have hne : j ≠ i := fun hji => hcall (hji ▸ rfl)
    refine ⟨?_, by simp [handsOut]⟩
    cases hj : table.partials[j]? with
    | none => simpa [reasmStep, hj] using hslot
    | some s =>
      simp only [reasmStep, hj]
      exact (List.getElem?_set_ne hne).trans hslot

/-- A slot handed out is the slot of a piece just added to it. -/
theorem give_handed {slot old : Partial} {held : List (ℕ × Bytes)} {i j : ℕ}
    (hj : table.partials[j]? = some old)
    (htake : TakeCase slot held c.index c.payload (takePiece slot c.index c.payload))
    (hout : (give table c slot j).2.1 = some i) :
    ∃ slot' : Partial, (give table c slot j).2.2.partials[i]? = some slot' ∧
      slot'.handed = true := by
  obtain ⟨hlt, -⟩ := List.getElem?_eq_some_iff.1 hj
  unfold give at hout ⊢
  generalize takePiece slot c.index c.payload = r at htake hout ⊢
  cases htake with
  | kept err _ _ => simp at hout
  | added slot' _ hrests _ _ =>
    by_cases hall : slot'.arrived = slot'.chunks
    · obtain rfl : j = i := by simpa [hall] using hout
      exact ⟨slot', List.getElem?_set_self hlt, hrests.handed_iff.2 hall⟩
    · simp [hall] at hout

theorem TableOk.handed_of_handsOut (h : TableOk table notes)
    (hout : (reasmAccept table c now).2.1 = some i) :
    ∃ slot : Partial, (reasmAccept table c now).2.2.partials[i]? = some slot ∧
      slot.handed = true := by
  have hswept : TableOk (reasmExpire table now).2 notes := h.drop _
  have hcase := slotFor_cases (reasmExpire table now).2 c now
  unfold reasmAccept at hout ⊢
  generalize slotFor (reasmExpire table now).2 c now = r at hcase hout ⊢
  cases hcase with
  | refused err => simp at hout
  | sized free j hj hfree => simp at hout
  | opened free j hj hfree hnew hopens =>
    have hok := hswept.slots j free hj
    exact give_handed hj (takePiece_cases (hopens.rests hok hfree _) (hopens.offered _)) hout
  | joined slot j hj hof hagrees =>
    have hlive := (Partial.isOf_iff.1 hof).1
    have hok := hswept.slots j slot hj
    have hrests := hok.rests hlive
    exact give_handed hj (takePiece_cases hrests
      (offered_of_agrees hrests.holds (hok.some_held hlive) hagrees)) hout

/-- **A slot handed out stays as it is** over every run without its release, and no call
of the run hands it out. -/
theorem TableOk.run_handed (h : TableOk table notes) (hslot : table.partials[i]? = some slot)
    (hhanded : slot.handed = true) {calls : List ReasmCall}
    (hcalls : ∀ call ∈ calls, call ≠ .release i) :
    (reasmRun table calls).partials[i]? = some slot ∧
      ∀ mid call, mid ++ [call] <+: calls → handsOut (reasmRun table mid) call ≠ some i := by
  have hmem : ∀ mid call, mid ++ [call] <+: calls → call ≠ .release i := by
    intro mid call hle
    exact hcalls call (hle.subset (by simp))
  have hkept : ∀ mid, mid <+: calls → (∃ notes, TableOk (reasmRun table mid) notes) ∧
      (reasmRun table mid).partials[i]? = some slot := by
    intro mid hmid
    refine Lib.prefix_induction (P := fun mid => (∃ notes, TableOk (reasmRun table mid) notes) ∧
      (reasmRun table mid).partials[i]? = some slot) ⟨⟨notes, h⟩, hslot⟩ ?_
    rintro pre call hle ⟨⟨notes', hok⟩, hat⟩
    rw [reasmRun_append]
    exact ⟨⟨_, hok.step call⟩, (hok.step_handed hat hhanded (hmem pre call (hle.trans hmid))).1⟩
  refine ⟨(hkept calls List.prefix_rfl).2, fun mid call hle => ?_⟩
  obtain ⟨⟨notes', hok⟩, hat⟩ := hkept mid ((List.prefix_append mid [call]).trans hle)
  exact (hok.step_handed hat hhanded (hmem mid call hle)).2

/-! ## Every run from an initialised table -/

/-- **The reassembly table over every run**, from slots given their buffers by
`fzn_reasm_slot_init` and a table made by `fzn_reasm_init`: one live slot per message,
at most `per_sender_max` per sender, counters and bitmap that agree with the pieces
held, writes inside the buffers with the last check idle, deadlines within `max_hold`
of the first piece, and slots handed out once and left alone until they are
released. -/
theorem reassembly_table_invariant {slots : List Partial} {perSenderMax : ℕ} {maxHold : UInt64}
    {table : Reasm} (hslots : ∀ slot ∈ slots, ∃ buf, slotInit buf = .ok slot)
    (hinit : reasmInit slots perSenderMax maxHold = .ok table) (calls : List ReasmCall) :
    (∀ (i j : ℕ) (s s' : Partial), (reasmRun table calls).partials[i]? = some s →
      (reasmRun table calls).partials[j]? = some s' → s.live = true → s'.live = true →
      s.sender = s'.sender → s.msg = s'.msg → i = j) ∧
    (∀ sender, heldBy (reasmRun table calls) sender ≤ perSenderMax) ∧
    (∀ (i : ℕ) (s : Partial), (reasmRun table calls).partials[i]? = some s → s.live = true →
      s.arrived = bitCount s.seen ∧
      s.bytes = (((watchRun table calls).2 i).held.map fun x => x.2.length).sum ∧
      (∀ index, seenGet s index = true ↔ index ∈ ((watchRun table calls).2 i).held.map Prod.fst) ∧
      (((watchRun table calls).2 i).held.map Prod.fst).Nodup ∧
      (s.handed = false →
        s.expiresAt.toNat ≤ ((watchRun table calls).2 i).since.toNat + maxHold.toNat)) ∧
    (∀ (c : Piece) (now : UInt64) (slot : Partial) (i : ℕ),
      slotFor (reasmExpire (reasmRun table calls) now).2 c now = .ok (slot, i) →
      WritesFit slot c.index c.payload) ∧
    (∀ (pre post : List ReasmCall) (call : ReasmCall) (i : ℕ), calls = pre ++ call :: post →
      handsOut (reasmRun table pre) call = some i → (∀ call' ∈ post, call' ≠ .release i) →
      (reasmRun table calls).partials[i]? = (reasmRun table (pre ++ [call])).partials[i]? ∧
      ∀ mid call', mid ++ [call'] <+: post →
        handsOut (reasmRun table (pre ++ call :: mid)) call' ≠ some i) := by
  have hok : ∀ calls, TableOk (reasmRun table calls) (watchRun table calls).2 := fun calls => by
    have h := watchRun_ok hslots hinit calls
    rwa [watchRun_fst] at h
  have htable : table.perSenderMax = perSenderMax ∧ table.maxHold = maxHold := by
    rw [reasmInit_ok hinit]
    exact ⟨rfl, rfl⟩
  have hbounds := reasmRun_bounds table calls
  refine ⟨(hok calls).one, fun sender => ?_, fun i s hs hlive => ?_, fun c now slot i hslot => ?_,
    fun pre post call i hcalls hout hpost => ?_⟩
  · have hquota := (hok calls).quota sender
    rwa [hbounds.1, htable.1] at hquota
  · have hslot := (hok calls).slots i s hs
    have hholds := (hslot.rests hlive).holds
    refine ⟨hholds.bitCount_seen.symm, hholds.bytes, hholds.seen_iff, hholds.nodup, fun _ => ?_⟩
    have hexpires := hslot.expires hlive
    rwa [hbounds.2, htable.2] at hexpires
  · exact (hok calls).writesFit hslot
  · -- the slot is handed out by `call`, and `post` is the run behind it
    have hrun : ∀ rest, reasmRun table (pre ++ call :: rest) =
        reasmRun (reasmRun table (pre ++ [call])) rest := by
      intro rest
      rw [← reasmRun_append, List.append_assoc, List.singleton_append]
    cases call with
    | accept c now =>
      obtain ⟨slot, hslot, hhanded⟩ := (hok pre).handed_of_handsOut hout
      have hat : (reasmRun table (pre ++ [.accept c now])).partials[i]? = some slot := by
        rw [reasmRun_append]
        exact hslot
      obtain ⟨hkept, hnone⟩ := (hok (pre ++ [.accept c now])).run_handed hat hhanded hpost
      refine ⟨?_, fun mid call' hle => ?_⟩
      · rw [hcalls, hrun, hkept, hat]
      · rw [hrun]
        exact hnone mid call' hle
    | expire now => exact absurd hout (by simp [handsOut])
    | forget sender msg => exact absurd hout (by simp [handsOut])
    | release j => exact absurd hout (by simp [handsOut])

/-- Two pieces of three bytes, the last one first. -/
def lastFirst : List ReasmCall :=
  [.accept ⟨7, 1, 1, 2, [30], 0⟩ 5, .accept ⟨7, 1, 0, 2, [10, 20], 0⟩ 6]

/-- The hypotheses are met by a table of one slot of four bytes; the last piece comes
first, is parked, and the second piece hands the slot out. -/
theorem reassembly_table_invariant_lastFirst :
    handsOut (reasmRun ⟨[emptySlot [0, 0, 0, 0]], 1, 9⟩ (lastFirst.take 1))
      (.accept ⟨7, 1, 0, 2, [10, 20], 0⟩ 6) = some 0 ∧
    heldBy (reasmRun ⟨[emptySlot [0, 0, 0, 0]], 1, 9⟩ lastFirst) 7 ≤ 1 := by
  have hinit : reasmInit [emptySlot [0, 0, 0, 0]] 1 9 = .ok ⟨[emptySlot [0, 0, 0, 0]], 1, 9⟩ := rfl
  refine ⟨by decide, ?_⟩
  refine (reassembly_table_invariant (fun slot hslot => ?_) hinit lastFirst).2.1 7
  obtain rfl := List.mem_singleton.1 hslot
  exact ⟨⟨[0, 0, 0, 0], by decide⟩, rfl⟩

end Chunk
end Fuzznet
