/-
# The ratchet

`ratchet/ratchet.c`: a chain key yields a message key and the chain key that follows it,
and a chain's position is the sequence number its key will produce.
`fzn_ratchet_advance` derives forward from one chain to a target into another, hands
back the keys of the numbers jumped over as far as there is room, and leaves the commit
to its caller.

The keys of a chain are a function of its key alone (`messageKeyAt`); a call that is not
refused writes exactly these (`ratchetAdvance_ok`).  A run of committed calls whose
targets rise delivers every number from its start to its last target once, under that
function's key, in whatever jumps (`Reached.covers`).  The position is a 64-bit count
and wraps behind the last number there is.
-/

import Fuzznet.Session.Derive
import Mathlib.Data.List.Nodup
import Mathlib.Algebra.GroupWithZero.Nat

namespace Fuzznet
namespace Session

open Wire

/-- `fzn_ratchet_err_t`. -/
inductive RatchetErr
  | ok
  | malformed
  | hash
  | behind
  | tooFar
  | inPlace
  deriving DecidableEq, Repr

/-- `fzn_ratchet_chain_t`.  `seq` is the number `key` will produce. -/
structure RatchetChain where
  key : Bytes32
  seq : UInt64
  deriving DecidableEq, Repr

/-- `FZN_RATCHET_LABEL`, `"fuzznet-ratchet1"`. -/
def ratchetLabel : Bytes :=
  [0x66, 0x75, 0x7a, 0x7a, 0x6e, 0x65, 0x74, 0x2d, 0x72, 0x61, 0x74, 0x63, 0x68, 0x65, 0x74, 0x31]

/-- `FZN_RATCHET_MAX_ADVANCE`. -/
def ratchetMaxAdvance : UInt64 := 100000

/-- `fzn_ratchet_derive`: the message key and the next chain key, or a hash that
refuses. -/
def ratchetDerive (ops : KdfOps) (chainKey : Bytes32) : Option (Bytes32 × Bytes32) :=
  (ops.wide (ratchetLabel ++ bytes32 chainKey)).map fun derived =>
    (firstHalf derived, lastHalf derived)

/-- What the caller of `fzn_ratchet_advance` passes by value.  `inPlace` is `to == from`;
the other three flags say which of the optional outputs are there. -/
structure AdvanceArgs where
  target : UInt64
  inPlace : Bool
  skippedOut : Bool
  skippedCap : ℕ
  skippedCount : Bool
  dropped : Bool

/-- What it reads and writes through its pointers.  `skipped` holds the slots of
`skipped_out`. -/
structure AdvanceCells where
  fromChain : RatchetChain
  toChain : RatchetChain
  messageKey : Bytes32
  skipped : List Bytes32
  skippedCount : ℕ
  dropped : ℕ
  deriving DecidableEq, Repr

/-- The locals of the loop. -/
structure AdvanceWork where
  chain : RatchetChain
  skipped : List Bytes32
  kept : ℕ
  lost : ℕ

/-- One turn of the loop behind its derivation: the key is kept while there is room. -/
def skipOne (a : AdvanceArgs) (w : AdvanceWork) (messageKey next : Bytes32) : AdvanceWork :=
  if a.skippedOut = false then { w with chain := ⟨next, w.chain.seq + 1⟩ }
  else if w.kept < a.skippedCap then
    { chain := ⟨next, w.chain.seq + 1⟩, skipped := w.skipped.set w.kept messageKey,
      kept := w.kept + 1, lost := w.lost }
  else { w with chain := ⟨next, w.chain.seq + 1⟩, lost := w.lost + 1 }

/-- The loop over the numbers jumped over; `false` is a hash that refused part-way. -/
def skipLoop (ops : KdfOps) (a : AdvanceArgs) : ℕ → AdvanceWork → Bool × AdvanceWork
  | 0, w => (true, w)
  | n + 1, w => match ratchetDerive ops w.chain.key with
    | none => (false, w)
    | some (mk, next) => skipLoop ops a n (skipOne a w mk next)

/-- `fzn_ratchet_advance`. -/
def ratchetAdvance (ops : KdfOps) (a : AdvanceArgs) (c : AdvanceCells) :
    RatchetErr × AdvanceCells :=
  if a.inPlace then (.inPlace, c)
  else if 0 < a.skippedCap ∧ a.skippedOut = false then (.malformed, c)
  else if a.skippedCount ≠ a.skippedOut then (.malformed, c)
  else if a.skippedOut ∧ a.dropped = false then (.malformed, c)
  else if a.target < c.fromChain.seq then (.behind, c)
  else if a.target - c.fromChain.seq > ratchetMaxAdvance then (.tooFar, c)
  else match skipLoop ops a (a.target - c.fromChain.seq).toNat
      ⟨c.fromChain, c.skipped, 0, 0⟩ with
    | (false, w) => (.hash, { c with skipped := w.skipped })
    | (true, w) => match ratchetDerive ops w.chain.key with
      | none => (.hash, { c with skipped := w.skipped })
      | some (mk, next) => (.ok,
          { fromChain := c.fromChain
            toChain := ⟨next, w.chain.seq + 1⟩
            messageKey := mk
            skipped := w.skipped
            skippedCount := if a.skippedCount then w.kept else c.skippedCount
            dropped := if a.dropped then w.lost else c.dropped })

/-! ## The keys of a chain -/

variable {c c' : AdvanceCells}

section Keys

variable {ops : KdfOps}

/-- The chain key `n` steps on. -/
def chainKeyAt (ops : KdfOps) (key : Bytes32) : ℕ → Option Bytes32
  | 0 => some key
  | n + 1 => (ratchetDerive ops key).bind fun p => chainKeyAt ops p.2 n

/-- The message key `n` numbers behind the chain's position. -/
def messageKeyAt (ops : KdfOps) (key : Bytes32) (n : ℕ) : Option Bytes32 :=
  (chainKeyAt ops key n).bind fun k => (ratchetDerive ops k).map Prod.fst

theorem chainKeyAt_add (key : Bytes32) (m n : ℕ) :
    chainKeyAt ops key (m + n) = (chainKeyAt ops key m).bind fun k => chainKeyAt ops k n := by
  induction m generalizing key with
  | zero => rw [Nat.zero_add, chainKeyAt, Option.bind_some]
  | succ m ih =>
    rw [Nat.add_right_comm, chainKeyAt, chainKeyAt, Option.bind_assoc]
    exact congrArg _ (funext fun p => ih p.2)

variable {a : AdvanceArgs} {m : ℕ}

/-- **A message key does not depend on where the chain was left on the way.** -/
theorem messageKeyAt_add {key k : Bytes32} (h : chainKeyAt ops key m = some k) (n : ℕ) :
    messageKeyAt ops key (m + n) = messageKeyAt ops k n := by
  rw [messageKeyAt, chainKeyAt_add, h, Option.bind_some, messageKeyAt]

theorem chainKeyAt_succ {key k mk next : Bytes32} {n : ℕ} (h : chainKeyAt ops key n = some k)
    (hk : ratchetDerive ops k = some (mk, next)) : chainKeyAt ops key (n + 1) = some next := by
  rw [chainKeyAt_add, h, Option.bind_some, chainKeyAt, hk, Option.bind_some, chainKeyAt]

/-- What the loop leaves behind `n` numbers. -/
structure Skipped (ops : KdfOps) (a : AdvanceArgs) (n : ℕ) (w w' : AdvanceWork) : Prop where
  key : chainKeyAt ops w.chain.key n = some w'.chain.key
  seq : w'.chain.seq = w.chain.seq + UInt64.ofNat n
  count : a.skippedOut → w'.kept + w'.lost = w.kept + w.lost + n
  kept : a.skippedOut → w.kept ≤ a.skippedCap → w'.kept = min (w.kept + n) a.skippedCap
  length : w'.skipped.length = w.skipped.length
  before : ∀ i < w.kept, w'.skipped[i]? = w.skipped[i]?
  keys : a.skippedOut → ∀ i < n, w.kept + i < a.skippedCap → w.kept + i < w.skipped.length →
    w'.skipped[w.kept + i]? = messageKeyAt ops w.chain.key i

theorem Skipped.refl (a : AdvanceArgs) (w : AdvanceWork) : Skipped ops a 0 w w where
  key := rfl
  seq := (UInt64.add_zero _).symm
  count := fun _ => rfl
  kept := fun _ h => (Nat.min_eq_left h).symm
  length := rfl
  before := fun _ _ => rfl
  keys := fun _ _ h => absurd h (Nat.not_lt_zero _)

theorem seq_succ (s : UInt64) (n : ℕ) :
    s + 1 + UInt64.ofNat n = s + UInt64.ofNat (n + 1) := by
  rw [Nat.add_comm n 1, UInt64.ofNat_add, ← UInt64.add_assoc]
  rfl

theorem skipOne_chain (a : AdvanceArgs) (w : AdvanceWork) (mk next : Bytes32) :
    (skipOne a w mk next).chain = ⟨next, w.chain.seq + 1⟩ := by
  unfold skipOne
  split
  · rfl
  · split <;> rfl

/-- One turn in front of the rest of the loop. -/
theorem Skipped.cons {w w' : AdvanceWork} {mk next : Bytes32} {n : ℕ}
    (hd : ratchetDerive ops w.chain.key = some (mk, next))
    (h : Skipped ops a n (skipOne a w mk next) w') : Skipped ops a (n + 1) w w' := by
  have hkey : chainKeyAt ops w.chain.key (n + 1) = some w'.chain.key := by
    rw [chainKeyAt, hd, Option.bind_some, ← h.key, skipOne_chain]
  have hseq : w'.chain.seq = w.chain.seq + UInt64.ofNat (n + 1) := by
    rw [h.seq, skipOne_chain, seq_succ]
  have hfirst : messageKeyAt ops w.chain.key 0 = some mk := by
    rw [messageKeyAt, chainKeyAt, Option.bind_some, hd, Option.map_some]
  have hlater : ∀ i, messageKeyAt ops w.chain.key (i + 1) = messageKeyAt ops next i := by
    intro i
    rw [Nat.add_comm]
    exact messageKeyAt_add (by rw [chainKeyAt, hd, Option.bind_some, chainKeyAt]) i
  by_cases hout : a.skippedOut
  case neg =>
    rw [skipOne, if_pos (by simpa using hout)] at h
    exact ⟨hkey, hseq, fun ho => absurd ho hout, fun ho => absurd ho hout, h.length, h.before,
      fun ho => absurd ho hout⟩
  case pos =>
    by_cases hroom : w.kept < a.skippedCap
    case pos =>
      rw [skipOne, if_neg (by simp [hout]), if_pos hroom] at h
      refine ⟨hkey, hseq, fun ho => ?_, fun ho _ => ?_, ?_, fun i hi => ?_, fun ho i hi hcap hlen => ?_⟩
      · have := h.count ho
        simp only at this
        omega
      · have := h.kept ho hroom
        simp only at this
        omega
      · rw [h.length, List.length_set]
      · rw [h.before i (Nat.lt_succ_of_lt hi)]
        exact List.getElem?_set_ne (Nat.ne_of_gt hi)
      · cases i with
        | zero =>
          rw [hfirst, Nat.add_zero, h.before w.kept (Nat.lt_succ_self _)]
          exact List.getElem?_set_self hlen
        | succ i =>
          rw [hlater, ← Nat.succ_add_eq_add_succ]
          refine h.keys ho i (Nat.lt_of_succ_lt_succ hi) ?_ ?_
          · exact (Nat.succ_add_eq_add_succ w.kept i).symm ▸ hcap
          · rw [List.length_set]
            exact (Nat.succ_add_eq_add_succ w.kept i).symm ▸ hlen
    case neg =>
      rw [skipOne, if_neg (by simp [hout]), if_neg hroom] at h
      refine ⟨hkey, hseq, fun ho => ?_, fun ho hle => ?_, h.length, h.before,
        fun _ i _ hcap => absurd hcap (by omega)⟩
      · have := h.count ho
        simp only at this
        omega
      · have := h.kept ho hle
        simp only at this
        omega

theorem skipLoop_spec {n : ℕ} {w w' : AdvanceWork} (h : skipLoop ops a n w = (true, w')) :
    Skipped ops a n w w' := by
  induction n generalizing w with
  | zero =>
    obtain ⟨-, rfl⟩ := Prod.mk.inj h
    exact Skipped.refl a w
  | succ n ih =>
    rw [skipLoop] at h
    split at h
    · exact absurd (Prod.mk.inj h).1 Bool.false_ne_true
    · next mk next hd => exact (ih h).cons hd

/-! ## One call -/

/-- What a call that is not refused leaves: the chain behind the target, the target's
key, and as many of the keys jumped over as there is room for, the oldest first. -/
structure Advanced (ops : KdfOps) (a : AdvanceArgs) (c c' : AdvanceCells) : Prop where
  ahead : c.fromChain.seq ≤ a.target
  fromChain : c'.fromChain = c.fromChain
  seq : c'.toChain.seq = a.target + 1
  key : chainKeyAt ops c.fromChain.key ((a.target - c.fromChain.seq).toNat + 1) =
    some c'.toChain.key
  messageKey : messageKeyAt ops c.fromChain.key (a.target - c.fromChain.seq).toNat =
    some c'.messageKey
  count : a.skippedOut → c'.skippedCount + c'.dropped = (a.target - c.fromChain.seq).toNat
  kept : a.skippedOut → c'.skippedCount = min (a.target - c.fromChain.seq).toNat a.skippedCap
  length : c'.skipped.length = c.skipped.length
  keys : a.skippedOut → a.skippedCap ≤ c.skipped.length → ∀ i < c'.skippedCount,
    c'.skipped[i]? = messageKeyAt ops c.fromChain.key i

/-- **A call that is not refused.** -/
theorem ratchetAdvance_ok (h : ratchetAdvance ops a c = (.ok, c')) : Advanced ops a c c' := by
  unfold ratchetAdvance at h
  split at h
  · exact absurd (Prod.mk.inj h).1 (by decide)
  split at h
  · exact absurd (Prod.mk.inj h).1 (by decide)
  split at h
  · exact absurd (Prod.mk.inj h).1 (by decide)
  next hcount =>
  split at h
  · exact absurd (Prod.mk.inj h).1 (by decide)
  next hdropped =>
  split at h
  · exact absurd (Prod.mk.inj h).1 (by decide)
  next hahead =>
  split at h
  · exact absurd (Prod.mk.inj h).1 (by decide)
  split at h
  · exact absurd (Prod.mk.inj h).1 (by decide)
  next w hloop =>
  have hw := skipLoop_spec hloop
  split at h
  · exact absurd (Prod.mk.inj h).1 (by decide)
  next mk next hd =>
  obtain ⟨-, rfl⟩ := Prod.mk.inj h
  have hle : c.fromChain.seq ≤ a.target := UInt64.not_lt.1 hahead
  have hkept : ∀ ho : a.skippedOut, w.kept = min (a.target - c.fromChain.seq).toNat a.skippedCap :=
    fun ho => by simpa using hw.kept ho (Nat.zero_le _)
  have hc : a.skippedOut → a.skippedCount := fun ho => by
    simpa [ho] using hcount
  refine ⟨hle, rfl, ?_, chainKeyAt_succ hw.key hd, ?_, fun ho => ?_, fun ho => ?_, hw.length,
    fun ho hlen i hi => ?_⟩
  · simp only [hw.seq, UInt64.ofNat_toNat]
    rw [UInt64.add_comm c.fromChain.seq, UInt64.sub_add_cancel]
  · rw [messageKeyAt, hw.key, Option.bind_some, hd, Option.map_some]
  · have hd : a.dropped := by simpa [ho] using hdropped
    have := hw.count ho
    simp only [hc ho, hd, if_true]
    simpa using this
  · simp only [hc ho, if_true]
    exact hkept ho
  · simp only [hc ho, if_true] at hi
    have hi' := hi
    rw [hkept ho] at hi'
    have := hw.keys ho i (by omega) (by simp only; omega) (by simp only; omega)
    simpa using this

/-- **A refused call leaves both chains as they were.** -/
theorem ratchetAdvance_refused {e : RatchetErr} (h : ratchetAdvance ops a c = (e, c'))
    (he : e ≠ .ok) : c'.fromChain = c.fromChain ∧ c'.toChain = c.toChain := by
  unfold ratchetAdvance at h
  -- the six refusals before the loop, then a hash that refused in it or behind it
  iterate 6
    split at h
    · obtain ⟨-, rfl⟩ := Prod.mk.inj h
      exact ⟨rfl, rfl⟩
  split at h
  · obtain ⟨-, rfl⟩ := Prod.mk.inj h
    exact ⟨rfl, rfl⟩
  split at h
  · obtain ⟨-, rfl⟩ := Prod.mk.inj h
    exact ⟨rfl, rfl⟩
  · exact absurd (Prod.mk.inj h).1.symm he

/-- The call on its optional outputs left out, and on all of them with room. -/
example : (ratchetAdvance ⟨fun _ => some 1, fun _ => none⟩ ⟨5, false, true, 1, true, true⟩
    ⟨⟨0, 3⟩, ⟨0, 0⟩, 0, [0], 0, 0⟩) = (.ok, ⟨⟨0, 3⟩, ⟨1, 6⟩, 0, [0], 1, 1⟩) := by
  decide +kernel

end Keys

/-! ## Runs of committed calls -/

/-- A message key under the number it is delivered for. -/
structure Delivery where
  seq : UInt64
  key : Bytes32
  deriving DecidableEq, Repr

/-- What a committed call delivers: the keys it kept, under the numbers jumped over, and
the target's. -/
def deliveries (a : AdvanceArgs) (c c' : AdvanceCells) : List Delivery :=
  ((c'.skipped.take c'.skippedCount).zipIdx.map fun p =>
    ⟨c.fromChain.seq + UInt64.ofNat p.2, p.1⟩) ++ [⟨a.target, c'.messageKey⟩]

/-- The call has an array for the keys it jumps over, and room in it for all of them. -/
structure EnoughRoom (a : AdvanceArgs) (c : AdvanceCells) : Prop where
  out : a.skippedOut
  buffer : a.skippedCap ≤ c.skipped.length
  cap : (a.target - c.fromChain.seq).toNat ≤ a.skippedCap

/-- A run: from the chain `start`, each call reaches its target with enough room and is
committed, `chain = next` behind it.  The targets, the chain held at the end and what
was delivered, in order. -/
inductive Reached (ops : KdfOps) (start : RatchetChain) :
    List UInt64 → RatchetChain → List Delivery → Prop
  | init : Reached ops start [] start []
  | commit {targets chain delivered a c c'} : Reached ops start targets chain delivered →
      c.fromChain = chain → EnoughRoom a c → ratchetAdvance ops a c = (.ok, c') →
      Reached ops start (targets ++ [a.target]) c'.toChain (delivered ++ deliveries a c c')

section Runs

variable {ops : KdfOps}

/-- A delivery as the pair of its number and its key. -/
def Delivery.pair (d : Delivery) : UInt64 × Option Bytes32 := (d.seq, some d.key)

/-- The numbers from a chain's position, each with the key the chain has for it. -/
def numbered (ops : KdfOps) (chain : RatchetChain) (n : ℕ) : List (UInt64 × Option Bytes32) :=
  (List.range n).map fun i => (chain.seq + UInt64.ofNat i, messageKeyAt ops chain.key i)

variable {start chain : RatchetChain} {targets : List UInt64} {delivered : List Delivery}

theorem numbered_add (hkey : chainKeyAt ops start.key m = some chain.key)
    (hseq : chain.seq = start.seq + UInt64.ofNat m) (n : ℕ) :
    numbered ops start (m + n) = numbered ops start m ++ numbered ops chain n := by
  rw [numbered, List.range_add, List.map_append, List.map_map]
  refine congrArg _ (List.map_congr_left fun i _ => Prod.ext ?_ (messageKeyAt_add hkey i))
  simp only [Function.comp_apply, hseq, UInt64.ofNat_add, UInt64.add_assoc]

/-- A call with enough room delivers the numbers from the chain's position to the
target. -/
theorem deliveries_eq (h : Advanced ops a c c') (hroom : EnoughRoom a c) :
    (deliveries a c c').map Delivery.pair =
      numbered ops c.fromChain ((a.target - c.fromChain.seq).toNat + 1) := by
  have hcount : c'.skippedCount = (a.target - c.fromChain.seq).toNat :=
    (h.kept hroom.out).trans (Nat.min_eq_left hroom.cap)
  rw [deliveries, numbered, List.range_succ, List.map_append, List.map_append, List.map_singleton,
    List.map_singleton, hcount]
  congr 1
  · refine List.ext_getElem? fun i => ?_
    rcases Nat.lt_or_ge i (a.target - c.fromChain.seq).toNat with hi | hi
    · have hkey := h.keys hroom.out hroom.buffer i (hcount ▸ hi)
      obtain ⟨k, hk⟩ : ∃ k, c'.skipped[i]? = some k := by
        have hlen : i < c'.skipped.length := by
          have := hroom.cap
          have := hroom.buffer
          rw [h.length]
          omega
        exact ⟨_, List.getElem?_eq_getElem hlen⟩
      rw [hk] at hkey
      simp [hi, hk, ← hkey, Delivery.pair, List.getElem?_zipIdx]
    · rw [List.getElem?_eq_none (by simp; omega), List.getElem?_eq_none (by simpa using hi)]
  · simp only [Delivery.pair, UInt64.ofNat_toNat, h.messageKey]
    rw [UInt64.add_comm c.fromChain.seq, UInt64.sub_add_cancel]

/-- The invariant of a run: the numbers from the start on are delivered up to the last
target, and the chain held is the start's behind them. -/
structure Covers (ops : KdfOps) (start : RatchetChain) (targets : List UInt64)
    (chain : RatchetChain) (delivered : List Delivery) (m : ℕ) : Prop where
  pairs : delivered.map Delivery.pair = numbered ops start m
  key : chainKeyAt ops start.key m = some chain.key
  seq : chain.seq = start.seq + UInt64.ofNat m
  below : ∀ t ∈ targets, t.toNat < start.seq.toNat + m
  last : m ≠ 0 → ∃ t ∈ targets, t.toNat + 1 = start.seq.toNat + m

theorem Covers.bound (h : Covers ops start targets chain delivered m) :
    start.seq.toNat + m ≤ 2 ^ 64 := by
  rcases Nat.eq_zero_or_pos m with rfl | hm
  · exact Nat.le_of_lt start.seq.toNat_lt
  · obtain ⟨t, -, ht⟩ := h.last (Nat.pos_iff_ne_zero.1 hm)
    have := t.toNat_lt
    omega

/-- One committed call above every target so far. -/
theorem Covers.commit {start : RatchetChain} (h : Covers ops start targets c.fromChain delivered m)
    (hroom : EnoughRoom a c) (hadv : Advanced ops a c c') (hup : ∀ t ∈ targets, t < a.target) :
    Covers ops start (targets ++ [a.target]) c'.toChain (delivered ++ deliveries a c c')
      (m + ((a.target - c.fromChain.seq).toNat + 1)) := by
  have hle : c.fromChain.seq.toNat ≤ a.target.toNat := UInt64.le_iff_toNat_le.1 hadv.ahead
  have hjump := UInt64.toNat_sub_of_le _ _ hadv.ahead
  -- the position has not wrapped: a target below the last number there is lies above it
  have hpos : c.fromChain.seq.toNat = start.seq.toNat + m := by
    have hmod : c.fromChain.seq.toNat = (start.seq.toNat + m) % 2 ^ 64 := by
      rw [h.seq, UInt64.toNat_add, UInt64.toNat_ofNat', Nat.add_mod_mod]
    rcases Nat.lt_or_ge (start.seq.toNat + m) (2 ^ 64) with hlt | hge
    · rw [hmod, Nat.mod_eq_of_lt hlt]
    · have := start.seq.toNat_lt
      obtain ⟨t, ht, hlast⟩ := h.last (by omega)
      have := UInt64.lt_iff_toNat_lt.1 (hup t ht)
      have := a.target.toNat_lt
      omega
  have hend : start.seq.toNat + (m + ((a.target - c.fromChain.seq).toNat + 1)) =
      a.target.toNat + 1 := by
    omega
  refine ⟨?_, ?_, ?_, fun t ht => ?_, fun _ => ⟨a.target, by simp, hend.symm⟩⟩
  · rw [List.map_append, h.pairs, deliveries_eq hadv hroom, ← numbered_add h.key h.seq]
  · rw [chainKeyAt_add, h.key, Option.bind_some, hadv.key]
  · rw [hadv.seq]
    apply UInt64.toNat_inj.1
    rw [UInt64.toNat_add, UInt64.toNat_add, UInt64.toNat_ofNat', Nat.add_mod_mod, hend]
    rfl
  · rw [hend]
    rcases List.mem_append.1 ht with ht | ht
    · have := UInt64.lt_iff_toNat_lt.1 (hup t ht)
      omega
    · rw [List.mem_singleton.1 ht]
      exact Nat.lt_succ_self _

/-- **A run whose targets rise covers the numbers it passes.** -/
theorem Reached.covers (h : Reached ops start targets chain delivered)
    (hup : targets.Pairwise (· < ·)) : ∃ m, Covers ops start targets chain delivered m := by
  induction h with
  | init => exact ⟨0, by simp [numbered], rfl, (UInt64.add_zero _).symm, by simp, by simp⟩
  | commit _ hc hroom hadv ih =>
    rw [List.pairwise_append] at hup
    obtain ⟨m, hm⟩ := ih hup.1
    subst hc
    exact ⟨_, hm.commit hroom (ratchetAdvance_ok hadv) fun t ht => hup.2.2 t ht _ (by simp)⟩

theorem numbered_fst (ops : KdfOps) (chain : RatchetChain) (n : ℕ) : (numbered ops chain n).map Prod.fst =
    (List.range n).map fun i => chain.seq + UInt64.ofNat i := by
  rw [numbered, List.map_map]
  rfl

section Covered

variable {start chain : RatchetChain} {targets : List UInt64} {delivered : List Delivery} {m : ℕ}

section

variable (h : Covers ops start targets chain delivered m)
include h

theorem Covers.seqs :
    delivered.map Delivery.seq = (List.range m).map fun i => start.seq + UInt64.ofNat i := by
  rw [← numbered_fst ops, ← h.pairs, List.map_map]
  rfl

/-- Below the end of a run, a number is not the start's position wrapped. -/
theorem Covers.toNat_seq {i : ℕ} (hi : i < m) :
    (start.seq + UInt64.ofNat i).toNat = start.seq.toNat + i := by
  have := h.bound
  rw [UInt64.toNat_add, UInt64.toNat_ofNat', Nat.add_mod_mod, Nat.mod_eq_of_lt (by omega)]

/-- The numbers delivered are the start's up to the last target, -/
theorem Covers.mem_seqs (n : UInt64) :
    n ∈ delivered.map Delivery.seq ↔ start.seq ≤ n ∧ ∃ t ∈ targets, n ≤ t := by
  rw [h.seqs, List.mem_map]
  constructor
  · rintro ⟨i, hi, rfl⟩
    have hi := List.mem_range.1 hi
    obtain ⟨t, ht, hlast⟩ := h.last (by omega)
    refine ⟨?_, t, ht, ?_⟩ <;> rw [UInt64.le_iff_toNat_le, h.toNat_seq hi] <;> omega
  · rintro ⟨hle, t, ht, hnt⟩
    have hle := UInt64.le_iff_toNat_le.1 hle
    have hnt := UInt64.le_iff_toNat_le.1 hnt
    have := h.below t ht
    have hi : n.toNat - start.seq.toNat < m := by omega
    refine ⟨n.toNat - start.seq.toNat, List.mem_range.2 hi, UInt64.toNat_inj.1 ?_⟩
    rw [h.toNat_seq hi]
    omega

/-- each of them once, -/
theorem Covers.nodup : (delivered.map Delivery.seq).Nodup := by
  rw [h.seqs]
  refine List.Nodup.map_on (fun i hi j hj heq => ?_) List.nodup_range
  have := h.toNat_seq (List.mem_range.1 hi)
  rw [heq, h.toNat_seq (List.mem_range.1 hj)] at this
  omega

/-- and under the key the start has for it. -/
theorem Covers.keys {d : Delivery} (hd : d ∈ delivered) :
    messageKeyAt ops start.key (d.seq - start.seq).toNat = some d.key := by
  have hmem : d.pair ∈ numbered ops start m := h.pairs ▸ List.mem_map_of_mem hd
  obtain ⟨i, hi, heq⟩ := List.mem_map.1 hmem
  obtain ⟨hseq, hkey⟩ := Prod.mk.inj heq
  have hi := List.mem_range.1 hi
  have hb := h.bound
  rw [← hseq, UInt64.add_comm, UInt64.add_sub_cancel, UInt64.toNat_ofNat',
    Nat.mod_eq_of_lt (by omega), hkey]

/-- The position held is behind everything delivered exactly when the last number there
is has not been reached. -/
theorem Covers.behind :
    (∀ d ∈ delivered, d.seq < chain.seq) ↔ ∀ t ∈ targets, t ≠ UInt64.ofNat (2 ^ 64 - 1) := by
  have hb := h.bound
  have hmax : (UInt64.ofNat (2 ^ 64 - 1)).toNat = 2 ^ 64 - 1 := rfl
  have hseq : chain.seq.toNat = (start.seq.toNat + m) % 2 ^ 64 := by
    rw [h.seq, UInt64.toNat_add, UInt64.toNat_ofNat', Nat.add_mod_mod]
  constructor
  · rintro hlt t ht rfl
    have := h.below _ ht
    have hm : start.seq.toNat + m = 2 ^ 64 := by omega
    have hmem : start.seq ∈ delivered.map Delivery.seq := by
      have := start.seq.toNat_lt
      refine (h.mem_seqs start.seq).2 ⟨UInt64.le_refl _, _, ht, ?_⟩
      rw [UInt64.le_iff_toNat_le]
      omega
    obtain ⟨d, hd, -⟩ := List.mem_map.1 hmem
    have := UInt64.lt_iff_toNat_lt.1 (hlt d hd)
    rw [hseq, hm] at this
    omega
  · intro hne d hd
    obtain ⟨hle, t, ht, hdt⟩ := (h.mem_seqs d.seq).1 (List.mem_map_of_mem hd)
    have hdt := UInt64.le_iff_toNat_le.1 hdt
    have := h.below t ht
    have hm : start.seq.toNat + m ≠ 2 ^ 64 := by
      intro hm
      obtain ⟨u, hu, hlast⟩ := h.last (by have := start.seq.toNat_lt; omega)
      exact hne u hu (UInt64.toNat_inj.1 (by omega))
    rw [UInt64.lt_iff_toNat_lt, hseq, Nat.mod_eq_of_lt (by omega)]
    omega

end

end Covered

/-- **The ratchet.**  A refused call leaves both chains.  A call that is not refused
reports every number it jumped over as kept or dropped, and the kept keys are the
oldest.  A run whose targets rise, each reached with enough room and committed, delivers
every number from the start to its last target once, under a key that is one function
of the start and the number; and the position it holds is above all of them exactly
when no target was the last number a count has. -/
theorem ratchet_forward (ops : KdfOps) :
    (∀ a c c' e, ratchetAdvance ops a c = (e, c') → e ≠ .ok →
      c'.fromChain = c.fromChain ∧ c'.toChain = c.toChain) ∧
    (∀ a c c', ratchetAdvance ops a c = (.ok, c') → a.skippedOut →
      a.skippedCap ≤ c.skipped.length →
        c'.skippedCount + c'.dropped = (a.target - c.fromChain.seq).toNat ∧
          ∀ i < c'.skippedCount, c'.skipped[i]? = messageKeyAt ops c.fromChain.key i) ∧
    ∀ start targets chain delivered, Reached ops start targets chain delivered →
      targets.Pairwise (· < ·) →
        (∀ d ∈ delivered, messageKeyAt ops start.key (d.seq - start.seq).toNat = some d.key) ∧
        (delivered.map Delivery.seq).Nodup ∧
        (∀ n, n ∈ delivered.map Delivery.seq ↔ start.seq ≤ n ∧ ∃ t ∈ targets, n ≤ t) ∧
        ((∀ d ∈ delivered, d.seq < chain.seq) ↔
          ∀ t ∈ targets, t ≠ UInt64.ofNat (2 ^ 64 - 1)) := by
  refine ⟨fun a c c' e h he => ratchetAdvance_refused h he, fun a c c' h hout hcap => ?_,
    fun start targets chain delivered h hup => ?_⟩
  · have hadv := ratchetAdvance_ok h
    exact ⟨hadv.count hout, hadv.keys hout hcap⟩
  · obtain ⟨m, hm⟩ := h.covers hup
    exact ⟨fun d hd => hm.keys hd, hm.nodup, hm.mem_seqs, hm.behind⟩

/-- A hash for the runs on fixed chains: every derivation gives the key one and the next
chain key two. -/
def fixedKdf : KdfOps := ⟨fun _ => some (BitVec.ofNat 512 (2 ^ 256 + 2)), fun _ => some 3⟩

/-- A call for the last number there is leaves a chain at zero. -/
theorem ratchetAdvance_last : ratchetAdvance fixedKdf
    ⟨UInt64.ofNat (2 ^ 64 - 1), false, true, 0, true, true⟩
    ⟨⟨0, UInt64.ofNat (2 ^ 64 - 1)⟩, ⟨0, 0⟩, 0, [], 0, 0⟩ =
      (.ok, ⟨⟨0, UInt64.ofNat (2 ^ 64 - 1)⟩, ⟨2, 0⟩, 1, [], 0, 0⟩) := by
  decide +kernel

/-- Committed, that position is below the number just delivered. -/
theorem ratchet_wraps : ¬ ∀ (ops : KdfOps) start targets chain delivered,
    Reached ops start targets chain delivered → targets.Pairwise (· < ·) →
      ∀ d ∈ delivered, d.seq < chain.seq := by
  intro h
  have hrun : Reached fixedKdf _ _ _ _ :=
    .commit .init rfl ⟨rfl, Nat.le_refl 0, by decide⟩ ratchetAdvance_last
  exact absurd (h _ _ _ _ _ hrun (by simp) ⟨UInt64.ofNat (2 ^ 64 - 1), 1⟩ (by decide))
    (by decide)

/-- A call for a number behind the chain, one with room for one of two keys, and a run of
two jumps, one of them over a number. -/
theorem ratchet_forward_two :
    (∃ c', ratchetAdvance fixedKdf ⟨2, false, false, 0, false, false⟩
      ⟨⟨0, 3⟩, ⟨7, 9⟩, 0, [], 0, 0⟩ = (.behind, c') ∧ c'.toChain = ⟨7, 9⟩) ∧
    (∃ c', ratchetAdvance fixedKdf ⟨5, false, true, 1, true, true⟩
      ⟨⟨0, 3⟩, ⟨0, 0⟩, 0, [0], 0, 0⟩ = (.ok, c') ∧ c'.skippedCount + c'.dropped = 2) ∧
    (∀ d ∈ [(⟨3, 1⟩ : Delivery), ⟨4, 1⟩, ⟨5, 1⟩],
      messageKeyAt fixedKdf 0 (d.seq - 3).toNat = some d.key) ∧
    ([(⟨3, 1⟩ : Delivery), ⟨4, 1⟩, ⟨5, 1⟩].map Delivery.seq).Nodup := by
  have h₁ : ratchetAdvance fixedKdf ⟨3, false, true, 0, true, true⟩
      ⟨⟨0, 3⟩, ⟨0, 0⟩, 0, [], 0, 0⟩ = (.ok, ⟨⟨0, 3⟩, ⟨2, 4⟩, 1, [], 0, 0⟩) := by
    decide +kernel
  have h₂ : ratchetAdvance fixedKdf ⟨5, false, true, 1, true, true⟩
      ⟨⟨2, 4⟩, ⟨0, 0⟩, 0, [0], 0, 0⟩ = (.ok, ⟨⟨2, 4⟩, ⟨2, 6⟩, 1, [1], 1, 0⟩) := by
    decide +kernel
  have hrun := (Reached.commit .init rfl ⟨rfl, Nat.le_refl _, by decide⟩ h₁).commit rfl
    ⟨rfl, Nat.le_refl _, by decide⟩ h₂
  obtain ⟨hrefused, hroom, hruns⟩ := ratchet_forward fixedKdf
  obtain ⟨hkeys, hnodup, -⟩ := hruns _ _ _ _ hrun (by decide)
  have h₃ : ratchetAdvance fixedKdf ⟨2, false, false, 0, false, false⟩
      ⟨⟨0, 3⟩, ⟨7, 9⟩, 0, [], 0, 0⟩ = (.behind, ⟨⟨0, 3⟩, ⟨7, 9⟩, 0, [], 0, 0⟩) := by
    decide
  have h₄ : ratchetAdvance fixedKdf ⟨5, false, true, 1, true, true⟩
      ⟨⟨0, 3⟩, ⟨0, 0⟩, 0, [0], 0, 0⟩ = (.ok, ⟨⟨0, 3⟩, ⟨2, 6⟩, 1, [1], 1, 1⟩) := by
    decide +kernel
  exact ⟨⟨_, h₃, (hrefused _ _ _ _ h₃ (by decide)).2⟩,
    ⟨_, h₄, (hroom _ _ _ h₄ rfl (Nat.le_refl _)).1⟩, hkeys, hnodup⟩

end Runs

end Session
end Fuzznet
