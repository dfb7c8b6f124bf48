/-
# What a spool claims to hold

The bitmap of a spool never claims more than was proved and stored (`bitmap_claims_no_more`):
whatever is placed, forgotten and opened again, and whatever the backend does with the writes,
behind every effect of every call each set bit's slot holds the leaf that stands there in the
tree of the root.
-/

import Fuzznet.Spool.Store
import Fuzznet.Lib.Runs
import Mathlib.Data.List.GetD

namespace Fuzznet
namespace Spool

open Wire Lib Blob

/-- A slot holds a leaf: its bytes, and zeros to the slot's end. -/
def SlotHolds (storage : Storage) (index : ℕ) (leaf : Bytes) : Prop :=
  ∀ k < sealedMax, storage (offsetOf index + k) = leaf.getD k 0

/-- The leaves of a blob: some, as many as a spool takes, each of a length that a leaf has. -/
structure BlobOk (blob : List Bytes) : Prop where
  some : 0 < blob.length
  few : blob.length ≤ spoolMaxLeaves
  sealed : ∀ leaf ∈ blob, 0 < leaf.length ∧ leaf.length ≤ sealedMax

/-- What the bitmap claims the storage has. -/
def Claimed (blob : List Bytes) (present : Bytes) (storage : Storage) : Prop :=
  ∀ i < blob.length, bitGet present i = true → SlotHolds storage i (blob.getD i [])

/-- A moment as it should be: what the bitmap claims is there, and what was written was written
into the slot of a leaf that the bitmap does not claim. -/
structure Moment.Right (blob : List Bytes) (m : Moment) : Prop where
  claimed : Claimed blob m.present m.storage
  wrote : ∀ offset len, m.effect = .wrote offset len → ∃ i < blob.length,
    bitGet m.present i = false ∧ offsetOf i ≤ offset ∧ offset + len ≤ offsetOf (i + 1)

/-- A spool in the middle of a call, where `keep` is asked of every bitmap. -/
structure During (root : Bytes32) (blob : List Bytes) (keep : Bytes → Prop) (s : SpoolState) :
    Prop where
  root : s.root = root
  leaves : s.leaves = blob.length
  room : bitmapLen blob.length ≤ s.present.length
  claimed : Claimed blob s.present s.storage
  counted : s.held = bitCount s.present s.leaves
  kept : keep s.present
  moments : ∀ m ∈ s.moments, m.Right blob ∧ keep m.present

variable {root : Bytes32} {blob : List Bytes} {keep : Bytes → Prop} {s : SpoolState} {backend : Backend}
  {index : ℕ} {sealed : Bytes}

theorem offsetOf_succ (index : ℕ) : offsetOf (index + 1) = offsetOf index + sealedMax :=
  Nat.succ_mul index sealedMax

variable {present : Bytes} {leaves : List Bytes} {proof : List Bytes32}

theorem div_lt_of_bitmapLen {i n : ℕ} (hroom : bitmapLen n ≤ present.length) (hi : i < n) :
    i / 8 < present.length := by
  unfold bitmapLen at hroom
  omega

/-! ## A write -/

theorem Written.on_of_not_mem {w : Written} {storage : Storage} {offset p : ℕ} {bytes : Bytes}
    (hp : ¬(offset ≤ p ∧ p < offset + bytes.length)) : w.on storage offset bytes p = storage p := by
  cases w with
  | done => exact if_neg hp
  | failed left => exact if_neg hp

theorem Written.on_of_isDone {w : Written} {storage : Storage} {offset k : ℕ} {bytes : Bytes}
    (hdone : w.isDone = true) (hk : k < bytes.length) :
    w.on storage offset bytes (offset + k) = bytes.getD k 0 := by
  cases w with
  | done =>
    refine (if_pos ⟨Nat.le_add_right _ _, Nat.add_lt_add_left hk _⟩).trans ?_
    rw [Nat.add_sub_cancel_left]
  | failed left => cases hdone

/-- Slots are apart. -/
theorem slot_ne {i j k : ℕ} {offset len : ℕ} (hne : i ≠ j) (hk : k < sealedMax)
    (hlo : offsetOf j ≤ offset) (hhi : offset + len ≤ offsetOf (j + 1)) :
    ¬(offset ≤ offsetOf i + k ∧ offsetOf i + k < offset + len) := by
  rintro ⟨hle, hlt⟩
  unfold offsetOf at *
  rcases Nat.lt_or_gt_of_ne hne with hij | hij
  · have := Nat.mul_le_mul_right sealedMax (Nat.succ_le_of_lt hij)
    rw [Nat.succ_mul] at this
    omega
  · have := Nat.mul_le_mul_right sealedMax (Nat.succ_le_of_lt hij)
    rw [Nat.succ_eq_add_one] at this
    omega

/-- **A write into a slot the bitmap does not claim** keeps what it claims. -/
theorem During.writeAt (h : During root blob keep s) (hindex : index < blob.length)
    (hclear : bitGet s.present index = false) {offset : ℕ} {bytes : Bytes}
    (hlo : offsetOf index ≤ offset) (hhi : offset + bytes.length ≤ offsetOf (index + 1)) :
    During root blob keep (writeAt backend s offset bytes).1 := by
  have hclaimed : Claimed blob s.present ((backend offset).on s.storage offset bytes) := by
    intro i hi hset k hk
    rw [Written.on_of_not_mem (slot_ne (by rintro rfl; rw [hclear] at hset; cases hset) hk hlo hhi)]
    exact h.claimed i hi hset k hk
  refine { h with claimed := hclaimed, moments := fun m hm => ?_ }
  rcases List.mem_append.1 hm with hm | hm
  · exact h.moments m hm
  · obtain rfl := List.mem_singleton.1 hm
    refine ⟨⟨hclaimed, fun offset' len heffect => ?_⟩, h.kept⟩
    obtain ⟨rfl, rfl⟩ := Effect.wrote.inj heffect
    exact ⟨index, hindex, hclear, hlo, hhi⟩

/-- **A bit set over its leaf** keeps what the bitmap claims. -/
theorem During.mark (h : During root blob keep s) (hindex : index < blob.length)
    (hclear : bitGet s.present index = false)
    (hholds : SlotHolds s.storage index (blob.getD index []))
    (hkeep : keep (bitSet s.present index)) : During root blob keep (mark s index) := by
  have hdiv := div_lt_of_bitmapLen h.room hindex
  have hclaimed : Claimed blob (bitSet s.present index) s.storage := by
    intro i hi hset
    rw [bitGet_bitSet hdiv, Bool.or_eq_true, decide_eq_true_eq] at hset
    rcases hset with rfl | hset
    · exact hholds
    · exact h.claimed i hi hset
  refine ⟨h.root, h.leaves, ?_, hclaimed, ?_, hkeep, fun m hm => ?_⟩
  · show bitmapLen blob.length ≤ (bitSet s.present index).length
    rw [length_bitSet]
    exact h.room
  · show s.held + 1 = bitCount (bitSet s.present index) s.leaves
    rw [bitCount_bitSet hdiv (by rw [h.leaves]; exact hindex) hclear, h.counted]
  · rcases List.mem_append.1 hm with hm | hm
    · exact h.moments m hm
    · obtain rfl := List.mem_singleton.1 hm
      exact ⟨⟨hclaimed, fun _ _ heffect => nomatch heffect⟩, hkeep⟩

/-- **A bit cleared** claims less. -/
theorem During.unmark (h : During root blob keep s) (hindex : index < blob.length)
    (hset : bitGet s.present index = true) (hkeep : keep (bitClear s.present index)) :
    During root blob keep (unmark s index) := by
  have hdiv := div_lt_of_bitmapLen h.room hindex
  have hclaimed : Claimed blob (bitClear s.present index) s.storage := by
    intro i hi hbit
    rw [bitGet_bitClear hdiv, Bool.and_eq_true] at hbit
    exact h.claimed i hi hbit.2
  refine ⟨h.root, h.leaves, ?_, hclaimed, ?_, hkeep, fun m hm => ?_⟩
  · show bitmapLen blob.length ≤ (bitClear s.present index).length
    rw [length_bitClear]
    exact h.room
  · show s.held - 1 = bitCount (bitClear s.present index) s.leaves
    have := bitCount_bitClear hdiv (show index < s.leaves by rw [h.leaves]; exact hindex) hset
    rw [h.counted]
    omega
  · rcases List.mem_append.1 hm with hm | hm
    · exact h.moments m hm
    · obtain rfl := List.mem_singleton.1 hm
      exact ⟨⟨hclaimed, fun _ _ heffect => nomatch heffect⟩, hkeep⟩

/-! ## A leaf that is proved -/

theorem present_writeTail :
    (writeTail backend s index sealed).1.present = s.present := by
  unfold writeTail
  split
  next => rfl
  next => rfl

/-- **A leaf's two writes and its bit.** -/
theorem During.putLeaf (h : During root blob keep s) (hindex : index < blob.length)
    (hclear : bitGet s.present index = false) (hleaf : blob.getD index [] = sealed)
    (hlen : sealed.length ≤ sealedMax) (hkeep : keep (bitSet s.present index)) :
    During root blob keep (putLeaf backend s index sealed).1 := by
  have hsucc := offsetOf_succ index
  have hbody : During root blob keep (Spool.writeAt backend s (offsetOf index) sealed).1 :=
    h.writeAt hindex hclear (Nat.le_refl _) (by omega)
  rw [Spool.putLeaf]
  dsimp only
  split
  next => exact hbody
  next hdone =>
    have htail : During root blob keep
        (writeTail backend (Spool.writeAt backend s (offsetOf index) sealed).1 index sealed).1 := by
      unfold writeTail
      split
      next => exact hbody.writeAt hindex hclear (Nat.le_add_right _ _)
                (by rw [List.length_replicate]; omega)
      next => exact hbody
    split
    next => exact htail
    next htaildone =>
      refine htail.mark hindex (by rw [present_writeTail]; exact hclear) ?_
        (by rw [present_writeTail]; exact hkeep)
      rw [Bool.not_eq_false] at hdone htaildone
      rw [hleaf]
      intro k hk
      by_cases hbyte : k < sealed.length
      · -- the second write lies behind the leaf's bytes
        have hfirst : (Spool.writeAt backend s (offsetOf index) sealed).1.storage
            (offsetOf index + k) = sealed.getD k 0 := Written.on_of_isDone hdone hbyte
        unfold writeTail
        split
        next =>
          refine (Written.on_of_not_mem ?_).trans hfirst
          omega
        next => exact hfirst
      · have hzero : sealed.getD k 0 = 0 := List.getD_eq_default _ _ (not_lt.1 hbyte)
        have hshort : sealed.length < sealedMax := by omega
        rw [writeTail, if_pos hshort] at htaildone ⊢
        have hthere := @Written.on_of_isDone _ (Spool.writeAt backend s (offsetOf index)
          sealed).1.storage (offsetOf index + sealed.length) _ _ htaildone
          (show k - sealed.length < (List.replicate (sealedMax - sealed.length) (0 : UInt8)).length
            by rw [List.length_replicate]; omega)
        rw [show offsetOf index + sealed.length + (k - sealed.length) = offsetOf index + k by omega]
          at hthere
        rw [hzero]
        refine hthere.trans ?_
        rw [List.getD_replicate _ (by omega)]

/-- What a keep asks is asked of no bit that is clear. -/
def Grows (n : ℕ) (keep : Bytes → Prop) : Prop :=
  ∀ present i, i < n → bitmapLen n ≤ present.length → keep present → keep (bitSet present i)

/-- **A span that is proved**, leaf by leaf. -/
theorem During.putSpan (h : During root blob keep s) (hgrows : Grows blob.length keep)
    (hroom : index + leaves.length ≤ blob.length)
    (hleaves : ∀ k, (hk : k < leaves.length) → blob.getD (index + k) [] = leaves[k])
    (hlen : ∀ leaf ∈ leaves, leaf.length ≤ sealedMax) :
    During root blob keep (putSpan backend s index leaves).1 := by
  induction leaves generalizing index s with
  | nil => exact h
  | cons sealed rest ih =>
    rw [List.length_cons] at hroom
    have hrest : ∀ s', During root blob keep s' →
        During root blob keep (Spool.putSpan backend s' (index + 1) rest).1 := fun s' hs' =>
      ih hs' (by omega)
        (fun k hk => by
          rw [Nat.add_assoc, Nat.add_comm 1 k]
          exact hleaves (k + 1) (Nat.succ_lt_succ hk))
        (fun leaf hleaf => hlen leaf (List.mem_cons_of_mem _ hleaf))
    rw [Spool.putSpan]
    split
    next => exact hrest s h
    next hclear =>
      rw [Bool.not_eq_true] at hclear
      have hput := @During.putLeaf _ _ _ _ backend _ _ h (show index < blob.length by omega) hclear
        (hleaves 0 (Nat.succ_pos _)) (hlen sealed (List.mem_cons_self ..))
        (hgrows _ _ (by omega) h.room h.kept)
      dsimp only
      split
      next => exact hput
      next => exact hrest _ hput

/-! ## What is proved is in the blob -/

variable {H : Bytes → Bytes32} {T : Set Bytes}

/-- The leaf hashes of a blob. -/
def blobHashes (H : Bytes → Bytes32) (blob : List Bytes) : List Bytes32 :=
  blob.map fun leaf => H (leafInput leaf)

@[simp] theorem length_blobHashes : (blobHashes H blob).length = blob.length := List.length_map _

/-- The root of a blob's tree. -/
def blobRoot (H : Bytes → Bytes32) (blob : List Bytes) : Bytes32 := rootOf H (blobHashes H blob)

/-- What a blob's tree hashes. -/
def blobInputs (H : Bytes → Bytes32) (blob : List Bytes) : Set Bytes :=
  treeInputs H (blobHashes H blob) ∪ {x | ∃ leaf ∈ blob, x = leafInput leaf}

/-- What a call hashes, on a spool of `leaves` leaves. -/
def Call.inputs (H : Bytes → Bytes32) (leaves : ℕ) : Call → Set Bytes
  | .place index sealed proof _ =>
    {leafInput sealed} ∪ verifyInputs H (H (leafInput sealed)) index leaves proof
  | .placeSpan first sealed proof _ =>
    {x | ∃ leaf ∈ sealed, x = leafInput leaf} ∪
      {x | ∃ lo n, Part 0 sealed.length lo n ∧ 1 < n ∧ x = partInput H (blobHashes H sealed) lo n} ∪
      spanInputs H (apex (node H) (leafAt (blobHashes H sealed)) 0 sealed.length) first
        sealed.length leaves proof
  | .forget _ _ => ∅
  | .reopen => ∅

theorem leafHash_answering (hlen : ¬(sealed.length = 0 ∨ sealedMax < sealed.length)) :
    leafHash (answering H) sealed = .ok (H (leafInput sealed)) := if_neg hlen

theorem leafAt_blobHashes {i : ℕ} (hi : i < blob.length) :
    leafAt (blobHashes H blob) i = H (leafInput (blob.getD i [])) := by
  rw [leafAt, blobHashes, List.getD_eq_getElem _ _ (by rw [List.length_map]; exact hi),
    List.getElem_map, List.getD_eq_getElem _ _ hi]

/-- Two leaves of one hash are one leaf. -/
theorem eq_of_leafHash {leaf leaf' : Bytes} (hinj : (answering H).InjOn T)
    (hleaf : leafInput leaf ∈ T) (hleaf' : leafInput leaf' ∈ T)
    (h : H (leafInput leaf) = H (leafInput leaf')) : leaf = leaf' :=
  (List.cons.inj (hinj _ hleaf _ hleaf' _ rfl (congrArg some h.symm))).2

theorem getD_mem {i : ℕ} (hi : i < blob.length) : blob.getD i [] ∈ blob := by
  rw [List.getD_eq_getElem _ _ hi]
  exact List.getElem_mem hi

/-- Of all that is hashed, a blob's tree among it, no two inputs share a hash. -/
structure Hashed (H : Bytes → Bytes32) (blob : List Bytes) (T : Set Bytes) : Prop where
  ok : BlobOk blob
  inj : (answering H).InjOn T
  tree : blobInputs H blob ⊆ T

theorem Hashed.few (h : Hashed H blob T) : blob.length < maxLeaves :=
  h.ok.few.trans_lt (by decide)

/-- **A leaf placed is the leaf that stands there.** -/
theorem Hashed.leaf_eq (h : Hashed H blob T)
    (hcall : (Call.place index sealed proof backend).inputs H blob.length ⊆ T)
    (hverify : proofVerify (answering H) (H (leafInput sealed)) index blob.length proof
      (blobRoot H blob) = .ok ()) : blob.getD index [] = sealed := by
  rw [blobRoot] at hverify
  obtain ⟨-, hat⟩ := proofVerify_pins (by rw [length_blobHashes]; exact h.few.le)
    (fun x hx y hy => h.inj x (hx.elim (fun hx => h.tree (.inl hx)) fun hx => hcall (.inr hx)) y
      (hy.elim (fun hy => h.tree (.inl hy)) fun hy => hcall (.inr hy))) hverify
  obtain ⟨hlt, hget⟩ := List.getElem?_eq_some_iff.1 hat
  rw [length_blobHashes] at hlt
  refine eq_of_leafHash h.inj (h.tree (.inr ⟨_, getD_mem hlt, rfl⟩)) (hcall (.inl rfl)) ?_
  rw [← leafAt_blobHashes (H := H) hlt, leafAt, List.getD_eq_getElem?_getD, hat]
  rfl

theorem spanHashes_ok {hashes : List Bytes32} (h : spanHashes (answering H) leaves = .ok hashes) :
    hashes = blobHashes H leaves ∧ ∀ leaf ∈ leaves, leaf.length ≤ sealedMax := by
  induction leaves generalizing hashes with
  | nil =>
    obtain rfl := Except.ok.inj h
    exact ⟨rfl, fun _ hleaf => nomatch hleaf⟩
  | cons sealed rest ih =>
    rw [spanHashes] at h
    obtain ⟨hlen, h⟩ := past_check h nofun
    rw [leafHash_answering hlen] at h
    dsimp only at h
    cases hrest : spanHashes (answering H) rest with
    | error e =>
      rw [hrest] at h
      cases h
    | ok leaves =>
      rw [hrest] at h
      obtain rfl := Except.ok.inj h
      obtain ⟨rfl, hle⟩ := ih hrest
      refine ⟨rfl, List.forall_mem_cons.2 ⟨?_, hle⟩⟩
      omega

/-- **The leaves of a span placed are the leaves that stand there.** -/
theorem Hashed.span_eq {span : Bytes32} (h : Hashed H blob T) (hsome : 0 < leaves.length)
    (hroom : index + leaves.length ≤ blob.length)
    (hcall : (Call.placeSpan index leaves proof backend).inputs H blob.length ⊆ T)
    (hspan : spanRoot (answering H) (blobHashes H leaves) = .ok span)
    (hverify : spanProofVerify (answering H) span index leaves.length blob.length proof
      (blobRoot H blob) = .ok ()) (k : ℕ) (hk : k < leaves.length) :
    blob.getD (index + k) [] = leaves[k] := by
  have hfew := h.few
  rw [spanRoot, length_blobHashes, if_neg (by omega),
    subtreeRoot_eq hsome (by rw [length_blobHashes, Nat.zero_add]) (by omega)] at hspan
  obtain rfl := Except.ok.inj hspan
  have hcount : blob.length = (blobHashes H blob).length := length_blobHashes.symm
  rw [blobRoot, hcount] at hverify
  obtain ⟨hpart, happex⟩ := spanProofVerify_pins h.inj (fun x hx => h.tree (.inl hx))
    (fun x hx => hcall (.inr (by rwa [length_blobHashes] at hx))) hverify
  have hpins := apex_pins hsome h.inj
    (fun lo n hpart' hmany => h.tree (.inl (.inr ⟨lo, n, hpart.trans hpart', hmany, rfl⟩)))
    (fun lo n hpart' hmany => hcall (.inl (.inr ⟨lo, n, hpart', hmany, rfl⟩))) happex.symm k hk
  rw [Nat.zero_add, leafAt_blobHashes (by omega), leafAt_blobHashes hk] at hpins
  rw [← List.getD_eq_getElem leaves [] hk]
  exact eq_of_leafHash h.inj (h.tree (.inr ⟨_, getD_mem (by omega), rfl⟩))
    (hcall (.inl (.inl ⟨_, getD_mem hk, rfl⟩))) hpins

/-! ## A call -/

/-- A call may clear a bit: it forgets the leaf. -/
def Call.Clears (i : ℕ) : Call → Prop
  | .forget first count => first ≤ i ∧ i < first + count
  | .place _ _ _ _ => False
  | .placeSpan _ _ _ _ => False
  | .reopen => False

/-- What a call has set and may not clear is set. -/
def Call.Keeps (c : Call) (before present : Bytes) : Prop :=
  ∀ i, bitGet before i = true → ¬c.Clears i → bitGet present i = true

theorem Call.keeps_grows (c : Call) (before : Bytes) (n : ℕ) : Grows n (c.Keeps before) := by
  intro present i hi hroom hkeep j hset hclears
  rw [bitGet_bitSet (div_lt_of_bitmapLen hroom hi), hkeep j hset hclears, Bool.or_true]

/-- **The leaves forgotten**, one by one. -/
theorem During.forgetFrom {count : ℕ} (h : During root blob keep s)
    (hkeep : ∀ present i, index ≤ i → i < index + count → i / 8 < present.length → keep present →
      keep (bitClear present i))
    (hroom : index + count ≤ blob.length) :
    During root blob keep (forgetFrom s index count).1 := by
  induction count generalizing index s with
  | zero => exact h
  | succ count ih =>
    have hrest : ∀ s', During root blob keep s' →
        During root blob keep (Spool.forgetFrom s' (index + 1) count).1 := fun s' hs' =>
      ih hs' (fun present i hlo hhi => hkeep present i (by omega) (by omega)) (by omega)
    rw [Spool.forgetFrom]
    split
    next => exact hrest s h
    next hset =>
      rw [Bool.not_eq_false] at hset
      exact hrest _ (h.unmark (by omega) hset (hkeep _ _ (Nat.le_refl _) (by omega)
        (div_lt_of_bitmapLen h.room (by omega)) h.kept))

section

variable (h : During (blobRoot H blob) blob keep s) (hashed : Hashed H blob T)
include h hashed

theorem During.place (hgrows : Grows blob.length keep)
    (hcall : (Call.place index sealed proof backend).inputs H blob.length ⊆ T) :
    During (blobRoot H blob) blob keep (place (answering H) backend s index sealed proof).1 := by
  rw [Spool.place]
  split
  next => exact h
  next hindex =>
    split
    next => exact h
    next hlen =>
      split
      next => exact h
      next hclear =>
        rw [Bool.not_eq_true] at hclear
        rw [leafHash_answering hlen]
        dsimp only
        split
        next => exact h
        next hverify =>
          rw [h.leaves, h.root] at hverify
          rw [h.leaves] at hindex
          exact h.putLeaf (not_le.1 hindex) hclear (hashed.leaf_eq hcall hverify) (by omega)
            (hgrows _ _ (not_le.1 hindex) h.room h.kept)

theorem During.placeSpan (hgrows : Grows blob.length keep)
    (hcall : (Call.placeSpan index leaves proof backend).inputs H blob.length ⊆ T) :
    During (blobRoot H blob) blob keep
      (placeSpan (answering H) backend s index leaves proof).1 := by
  rw [Spool.placeSpan]
  split
  next => exact h
  next hsome =>
    split
    next => exact h
    next hroom =>
      rw [h.leaves] at hroom ⊢
      split
      next => exact h
      next =>
        split
        next => exact h
        next hhashes =>
          obtain ⟨rfl, hlen⟩ := spanHashes_ok hhashes
          split
          next => exact h
          next hspan =>
            split
            next => exact h
            next hverify =>
              rw [h.root] at hverify
              exact h.putSpan hgrows (by omega)
                (hashed.span_eq (by omega) (by omega) hcall hspan hverify) hlen

/-- **A call** keeps a spool right, and every moment of it. -/
theorem During.call {c : Call} (hcall : c.inputs H blob.length ⊆ T) :
    During (blobRoot H blob) blob (c.Keeps s.present) (call (answering H) s c) := by
  have hstart : During (blobRoot H blob) blob (c.Keeps s.present) { s with moments := [] } :=
    ⟨h.root, h.leaves, h.room, h.claimed, h.counted, fun _ hset _ => hset, fun m hm => nomatch hm⟩
  have hgrows := c.keeps_grows s.present blob.length
  cases c with
  | place index sealed proof backend => exact hstart.place hashed hgrows hcall
  | placeSpan first sealed proof backend => exact hstart.placeSpan hashed hgrows hcall
  | forget first count =>
    rw [Spool.call, forget]
    split
    next => exact hstart
    next hroom =>
      replace hroom : ¬(blob.length ≤ first ∨ blob.length - first < count) := h.leaves ▸ hroom
      refine hstart.forgetFrom (fun present i hlo hhi hdiv hkeep j hset hclears => ?_) (by omega)
      rw [bitGet_bitClear hdiv, hkeep j hset hclears, Bool.and_true,
        decide_eq_false (by rintro rfl; exact hclears ⟨hlo, hhi⟩), Bool.not_false]
  | reopen =>
    have hok := hashed.ok
    have hsome := hok.some
    have hfew := hok.few
    rw [Spool.call, spoolOpen, h.leaves, if_neg (by omega), if_neg (by omega),
      if_neg (not_lt.2 h.room)]
    exact ⟨h.root, rfl, h.room, h.claimed, rfl, fun _ hset _ => hset, fun m hm => nomatch hm⟩

end

/-! ## A run -/

/-- What a spool answers is what its bitmap says. -/
structure Answers (blob : List Bytes) (s : SpoolState) : Prop where
  held : s.held = bitCount s.present blob.length
  complete : complete s = true ↔ ∀ i < blob.length, bitGet s.present i = true
  missing : ∀ start i, nextMissing s start = .ok i ↔ start ≤ i ∧ i < blob.length ∧
    bitGet s.present i = false ∧ ∀ j, start ≤ j → j < i → bitGet s.present j = true
  absent : ∀ start, nextMissing s start = .error .absent ↔
    ∀ j, start ≤ j → j < blob.length → bitGet s.present j = true

theorem missingFrom_ok_iff {start i todo : ℕ} :
    missingFrom present start todo = .ok i ↔ start ≤ i ∧ i < start + todo ∧
      bitGet present i = false ∧ ∀ j, start ≤ j → j < i → bitGet present j = true := by
  induction todo generalizing start with
  | zero =>
    rw [missingFrom]
    constructor
    · exact fun h => nomatch h
    · omega
  | succ todo ih =>
    rw [missingFrom]
    split
    next hclear =>
      constructor
      · intro h
        obtain rfl := Except.ok.inj h
        exact ⟨Nat.le_refl _, by omega, hclear, fun j hlo hhi => absurd hhi (not_lt.2 hlo)⟩
      · rintro ⟨hlo, -, -, hset⟩
        rcases Nat.eq_or_lt_of_le hlo with rfl | hlt
        · rfl
        · rw [hset start (Nat.le_refl _) hlt] at hclear
          cases hclear
    next hset =>
      rw [Bool.not_eq_false] at hset
      rw [ih]
      constructor
      · rintro ⟨hlo, hhi, hclear, hbelow⟩
        refine ⟨by omega, by omega, hclear, fun j hj hji => ?_⟩
        rcases Nat.eq_or_lt_of_le hj with rfl | hlt
        · exact hset
        · exact hbelow j hlt hji
      · rintro ⟨hlo, hhi, hclear, hbelow⟩
        have hne : start ≠ i := by
          rintro rfl
          rw [hset] at hclear
          cases hclear
        exact ⟨by omega, by omega, hclear, fun j hj hji => hbelow j (by omega) hji⟩

theorem missingFrom_absent_iff {start todo : ℕ} :
    missingFrom present start todo = .error .absent ↔
      ∀ j, start ≤ j → j < start + todo → bitGet present j = true := by
  induction todo generalizing start with
  | zero =>
    rw [missingFrom]
    exact ⟨fun _ j hlo hhi => absurd hhi (not_lt.2 hlo), fun _ => rfl⟩
  | succ todo ih =>
    rw [missingFrom]
    split
    next hclear =>
      constructor
      · exact fun h => nomatch h
      · intro h
        rw [h start (Nat.le_refl _) (by omega)] at hclear
        cases hclear
    next hset =>
      rw [Bool.not_eq_false] at hset
      rw [ih]
      constructor
      · intro h j hlo hhi
        rcases Nat.eq_or_lt_of_le hlo with rfl | hlt
        · exact hset
        · exact h j hlt (by omega)
      · exact fun h j hlo hhi => h j (by omega) (by omega)

theorem During.answers (h : During root blob keep s) (hsome : 0 < blob.length) :
    Answers blob s := by
  have hheld : s.held = bitCount s.present blob.length := h.leaves ▸ h.counted
  refine ⟨hheld, ?_, fun start i => ?_, fun start => ?_⟩
  · rw [Spool.complete, h.leaves, hheld, decide_eq_true hsome, Bool.true_and, beq_iff_eq,
      bitCount_eq_iff]
  · rw [nextMissing, h.leaves, missingFrom_ok_iff]
    constructor
    · rintro ⟨hlo, hhi, hrest⟩
      exact ⟨hlo, by omega, hrest⟩
    · rintro ⟨hlo, hhi, hrest⟩
      exact ⟨hlo, by omega, hrest⟩
  · rw [nextMissing, h.leaves, missingFrom_absent_iff]
    constructor
    · exact fun h j hlo hhi => h j hlo (by omega)
    · exact fun h j hlo hhi => h j hlo (by omega)

theorem during_of_open {storage : Storage} (hok : BlobOk blob)
    (hempty : ∀ i < blob.length, bitGet present i = false)
    (hopen : spoolOpen root blob.length present storage = .ok s) :
    During root blob (fun _ => True) s := by
  have hsome := hok.some
  have hfew := hok.few
  rw [spoolOpen, if_neg (by omega), if_neg (by omega)] at hopen
  obtain ⟨hroom, hopen⟩ := past_check hopen nofun
  obtain rfl := Except.ok.inj hopen
  refine ⟨rfl, rfl, not_lt.1 hroom, fun i hi hset => ?_, rfl, trivial, fun m hm => nomatch hm⟩
  rw [hempty i hi] at hset
  cases hset

theorem run_snoc (ops : HashOps) (s : SpoolState) (pre : List Call) (c : Call) :
    run ops s (pre ++ [c]) = call ops (run ops s pre) c := List.foldl_append

/-- What a blob's tree and a run's calls hash. -/
def runInputs (H : Bytes → Bytes32) (blob : List Bytes) (calls : List Call) : Set Bytes :=
  blobInputs H blob ∪ {x | ∃ c ∈ calls, x ∈ c.inputs H blob.length}

/-- **The bitmap claims no more than was proved and stored.**  A spool opened over an empty
bitmap, then called with anything, over a backend that fails as it likes: at every moment of every
call each set bit's slot holds its leaf and zeros, what is written is written where no bit is
set, a bit set is cleared only by a call that forgets its leaf, and the answers of the spool are
those of its bitmap. -/
theorem bitmap_claims_no_more {present : Bytes} {storage : Storage} {calls : List Call}
    (hok : BlobOk blob) (hempty : ∀ i < blob.length, bitGet present i = false)
    (hinj : (answering H).InjOn (runInputs H blob calls))
    (hopen : spoolOpen (blobRoot H blob) blob.length present storage = .ok s) :
    Answers blob s ∧ ∀ pre c, pre ++ [c] <+: calls →
      (∀ m ∈ (run (answering H) s (pre ++ [c])).moments, m.Right blob ∧
        c.Keeps (run (answering H) s pre).present m.present) ∧
      Claimed blob (run (answering H) s (pre ++ [c])).present
        (run (answering H) s (pre ++ [c])).storage ∧
      c.Keeps (run (answering H) s pre).present (run (answering H) s (pre ++ [c])).present ∧
      Answers blob (run (answering H) s (pre ++ [c])) := by
  have hashed : Hashed H blob (runInputs H blob calls) :=
    ⟨hok, hinj, fun x hx => .inl hx⟩
  have hstart := during_of_open hok hempty hopen
  refine ⟨hstart.answers hok.some, fun pre c hpre => ?_⟩
  have hcalls : ∀ c' ∈ pre ++ [c], c'.inputs H blob.length ⊆ runInputs H blob calls :=
    fun c' hc x hx => .inr ⟨c', hpre.subset hc, hx⟩
  have hbefore : ∃ keep, During (blobRoot H blob) blob keep (run (answering H) s pre) :=
    foldl_induction (P := fun s => ∃ keep, During (blobRoot H blob) blob keep s)
      (fun _ e hle ⟨_, h⟩ => ⟨_, h.call hashed (hcalls e (List.mem_append_left _
        (hle.subset (List.mem_append_right _ (List.mem_singleton_self e)))))⟩) ⟨_, hstart⟩
  obtain ⟨keep, hbefore⟩ := hbefore
  have hafter := hbefore.call hashed (hcalls c (List.mem_append_right _ (List.mem_singleton_self c)))
  rw [run_snoc]
  exact ⟨hafter.moments, hafter.claimed, hafter.kept, hafter.answers hok.some⟩

/-- A hash that tells the few inputs of a small blob apart: the bytes as digits. -/
def digitHash (input : Bytes) : Bytes32 :=
  BitVec.ofNat 256 (input.foldl (fun n b => n * 257 + b.toNat + 1) 0)

/-- Three leaves: the tree is over the first two and the last. -/
def threeLeaves : List Bytes := [[7], [8], [9]]

/-- The first two placed as a span, a write of the second failing, and placed again; the last
placed, the second forgotten, and the spool opened again. -/
def threeCalls : List Call :=
  [.placeSpan 0 [[7], [8]] [digitHash (leafInput [9])]
      fun offset => if offset = offsetOf 1 then .failed fun _ => 5 else .done,
    .placeSpan 0 [[7], [8]] [digitHash (leafInput [9])] fun _ => .done,
    .place 2 [9] [node digitHash (digitHash (leafInput [7])) (digitHash (leafInput [8]))]
      fun _ => .done,
    .forget 1 1, .reopen]

/-- All that is hashed for them. -/
def threeInputs : List Bytes :=
  let front := node digitHash (digitHash (leafInput [7])) (digitHash (leafInput [8]))
  let last := digitHash (leafInput [9])
  [leafInput [7], leafInput [8], leafInput [9],
    nodeInput (digitHash (leafInput [7])) (digitHash (leafInput [8])), nodeInput front last,
    rootInput (node digitHash front last) 3]

theorem mem_threeInputs {x : Bytes} (hx : x ∈ runInputs digitHash threeLeaves threeCalls) :
    x ∈ threeInputs := by
  have hparts : ∀ {lo n : ℕ}, Part 0 3 lo n → 1 < n → lo = 0 ∧ (n = 3 ∨ n = 2) := by
    intro lo n hpart hmany
    have hsplit : splitSize 3 = 2 := by decide
    rcases hpart.of_halves with ⟨rfl, rfl⟩ | ⟨-, hhalf⟩
    · exact ⟨rfl, .inl rfl⟩
    · rw [hsplit] at hhalf
      rcases hhalf with hhalf | hhalf <;> have := hhalf.bounds <;> omega
  have hleaves : ∀ leaf ∈ threeLeaves, leafInput leaf ∈ threeInputs := by decide
  rcases hx with ((rfl | ⟨lo, n, hpart, hmany, rfl⟩) | ⟨leaf, hleaf, rfl⟩) | ⟨c, hc, hx⟩
  · decide +kernel
  · obtain ⟨rfl, rfl | rfl⟩ := hparts hpart hmany <;> decide +kernel
  · exact hleaves leaf hleaf
  · have hspan : ∀ {x backend}, x ∈ (Call.placeSpan 0 [[7], [8]] [digitHash (leafInput [9])]
        backend).inputs digitHash 3 → x ∈ threeInputs := by
      rintro x backend ((⟨leaf, hleaf, rfl⟩ | ⟨lo, n, hpart, hmany, rfl⟩) | ⟨path, hpath, hx⟩)
      · exact hleaves leaf (List.mem_of_mem_take (i := 2) hleaf)
      · have hbounds : 0 ≤ lo ∧ lo + n ≤ 0 + 2 := hpart.bounds
        obtain ⟨rfl, rfl⟩ : lo = 0 ∧ n = 2 := by omega
        decide +kernel
      · obtain rfl : [false] = path := Except.ok.inj hpath
        rcases hx with hx | rfl
        · obtain rfl := List.mem_singleton.1 hx
          decide +kernel
        · decide +kernel
    simp only [threeCalls, List.mem_cons, List.not_mem_nil, or_false] at hc
    rcases hc with rfl | rfl | rfl | rfl | rfl
    · exact hspan hx
    · exact hspan hx
    · rcases hx with rfl | ⟨path, hpath, hx⟩
      · exact hleaves [9] (by decide)
      · obtain rfl : [true] = path := Except.ok.inj hpath
        rcases hx with hx | rfl
        · obtain rfl := List.mem_singleton.1 hx
          decide +kernel
        · decide +kernel
    · exact nomatch hx
    · exact nomatch hx

/-- A spool of them, just opened. -/
def threeOpen : SpoolState := ⟨blobRoot digitHash threeLeaves, 3, 0, [0], fun _ => 9, []⟩

/-- Behind the failed write the first leaf is claimed alone; then all three are, and at the end
the second is not. -/
theorem bitmap_claims_no_more_three :
    (run (answering digitHash) threeOpen (threeCalls.take 1)).present = [1] ∧
      Claimed threeLeaves [1] (run (answering digitHash) threeOpen (threeCalls.take 1)).storage ∧
      complete (run (answering digitHash) threeOpen (threeCalls.take 3)) = true ∧
      Claimed threeLeaves (run (answering digitHash) threeOpen (threeCalls.take 3)).present
        (run (answering digitHash) threeOpen (threeCalls.take 3)).storage ∧
      (run (answering digitHash) threeOpen threeCalls).present = [5] ∧
      Answers threeLeaves (run (answering digitHash) threeOpen threeCalls) := by
  have hinj : (answering digitHash).InjOn (runInputs digitHash threeLeaves threeCalls) := by
    have hall : ∀ x ∈ threeInputs, ∀ y ∈ threeInputs, digitHash x = digitHash y → x = y := by
      decide +kernel
    intro x hx y hy d hdx hdy
    exact hall x (mem_threeInputs hx) y (mem_threeInputs hy) (Option.some.inj (hdx.trans hdy.symm))
  have hok : BlobOk threeLeaves := ⟨by decide, by decide, by decide⟩
  have hopen : spoolOpen (blobRoot digitHash threeLeaves) threeLeaves.length [0] (fun _ => 9) =
      .ok threeOpen := rfl
  obtain ⟨-, hrun⟩ := bitmap_claims_no_more hok (by decide) hinj hopen
  have hfailed := (hrun [] _ (List.prefix_append [_] _)).2.1
  have hplaced := (hrun [_, _] _ (List.prefix_append [_, _, _] _)).2.1
  have hlast := (hrun [_, _, _, _] _ List.prefix_rfl).2.2.2
  have hone : (run (answering digitHash) threeOpen (threeCalls.take 1)).present = [1] := by
    decide +kernel
  exact ⟨hone, hone ▸ hfailed, by decide +kernel, hplaced, by decide +kernel, hlast⟩

end Spool
end Fuzznet
