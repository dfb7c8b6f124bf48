/-
# A blob's tree in storage

`blob/levels.c`: every perfect subtree of a blob's tree written out level by level as its
leaves arrive, and the proofs made from what is read back.

The nodes of a level stand one behind the other, and the levels one behind the other, so no
two nodes overlap (`nodeOffset_apart`) and all are inside the size the levels are said to
take (`nodeOffset_le`).

Each node is written once, inside that size, and holds the apex over its leaves; so a subtree
read back and folded along its ragged right edge is the one the array gives, and so is every
span's proof (`levels_agree_iff`).  Only the largest blob has a level the builder has no room
for.
-/

import Fuzznet.Blob.Span
import Mathlib.Logic.Function.Basic

namespace Fuzznet
namespace Blob

open Wire Lib

section

/-- `fzn_blob_levels_io_t`: 32 bytes read and written at byte offsets of some storage. -/
structure LevelsIo (σ : Type) where
  read : σ → ℕ → Option Bytes32
  write : σ → ℕ → Bytes32 → Option σ

/-- `level_at`. -/
def levelAt (leaves : ℕ) : ℕ → ℕ
  | 0 => 0
  | l + 1 => levelAt leaves l + leaves >>> l

/-- The loop of `fzn_blob_levels_bytes`. -/
def levelsFrom (leaves : ℕ) : ℕ → ℕ → ℕ
  | 0, l => l
  | room + 1, l => if leaves >>> l ≠ 0 then levelsFrom leaves room (l + 1) else l

/-- `fzn_blob_levels_bytes`. -/
def levelsBytes (leaves : ℕ) : ℕ :=
  if leaves = 0 ∨ maxLeaves < leaves then 0
  else levelAt leaves (levelsFrom leaves maxDepth 0) * hashLen

/-- `fzn_blob_levels_builder_t`. -/
structure LevelsBuilder where
  leaves : ℕ
  pushed : ℕ
  pending : ℕ → Bytes32

/-- `fzn_blob_levels_begin`. -/
def levelsBegin (leaves : ℕ) : Except BlobErr LevelsBuilder :=
  if leaves = 0 ∨ maxLeaves < leaves then .error .malformed else .ok ⟨leaves, 0, fun _ => 0⟩

/-- Where node `index` of a level is. -/
def nodeOffset (leaves level index : ℕ) : ℕ := (levelAt leaves level + index) * hashLen

variable {σ : Type}

/-- `put_node`. -/
def putNode (io : LevelsIo σ) (leaves level index : ℕ) (s : σ) (node : Bytes32) : Option σ :=
  io.write s (nodeOffset leaves level index) node

/-- The loop of `fzn_blob_levels_push`, with `room` levels above `level`. -/
def carryUp (ops : HashOps) (io : LevelsIo σ) (leaves : ℕ) (pending : ℕ → Bytes32) :
    ℕ → ℕ → ℕ → Bytes32 → σ → Except BlobErr ((ℕ → Bytes32) × σ)
  | room, level, index, node, s =>
    match putNode io leaves level index s node with
    | none => .error .io
    | some s =>
      if index % 2 = 0 then .ok (Function.update pending level node, s)
      else
        match room with
        | 0 => .error .shape
        | room + 1 => do
          let node ← nodeHash ops (pending level) node
          carryUp ops io leaves pending room (level + 1) (index / 2) node s

/-- `fzn_blob_levels_push`. -/
def levelsPush (ops : HashOps) (io : LevelsIo σ) (b : LevelsBuilder × σ) (leafHash : Bytes32) :
    Except BlobErr (LevelsBuilder × σ) :=
  if b.1.leaves ≤ b.1.pushed then .error .full
  else do
    let r ← carryUp ops io b.1.leaves b.1.pending (maxDepth - 1) 0 b.1.pushed leafHash b.2
    .ok ({ b.1 with pushed := b.1.pushed + 1, pending := r.1 }, r.2)

/-- A whole blob's leaf hashes pushed. -/
def levelsPushes (ops : HashOps) (io : LevelsIo σ) (b : LevelsBuilder × σ)
    (leafHashes : List Bytes32) : Except BlobErr (LevelsBuilder × σ) :=
  leafHashes.foldlM (levelsPush ops io) b

/-- `split_below`. -/
def splitBelow (n : ℕ) : ℕ := splitFrom 64 1 n

/-- The loop that finds a node's level. -/
def levelFrom : ℕ → ℕ → ℕ → ℕ
  | 0, level, _ => level
  | fuel + 1, level, n => if 1 <<< level < n then levelFrom fuel (level + 1) n else level

theorem splitFrom_lt {fuel k n : ℕ} (h : k < n) : splitFrom fuel k n < n := by
  induction fuel generalizing k with
  | zero => exact h
  | succ fuel ih =>
    rw [splitFrom]
    split
    next hmore => exact ih hmore
    next => exact h

theorem splitFrom_pos {fuel k n : ℕ} (h : 0 < k) : 0 < splitFrom fuel k n := by
  induction fuel generalizing k with
  | zero => exact h
  | succ fuel ih =>
    rw [splitFrom]
    split
    next => exact ih (by omega)
    next => exact h

/-- `fzn_blob_levels_subtree`, over what is behind `io`. -/
def levelsSubtree (ops : HashOps) (io : LevelsIo σ) (leaves : ℕ) (s : σ) (lo n : ℕ) :
    Except BlobErr Bytes32 :=
  if n = 0 ∨ leaves < lo ∨ leaves - lo < n then .error .malformed
  else if n &&& (n - 1) = 0 ∧ lo &&& (n - 1) = 0 then
    let level := levelFrom 64 0 n
    match io.read s ((levelAt leaves level + lo >>> level) * hashLen) with
    | none => .error .io
    | some node => .ok node
  else if _ : 1 < n then do
    let k := splitBelow n
    let left ← levelsSubtree ops io leaves s lo k
    let right ← levelsSubtree ops io leaves s (lo + k) (n - k)
    nodeHash ops left right
  else .error .malformed
termination_by n
decreasing_by
  · exact splitFrom_lt ‹_›
  · have : 0 < splitBelow n := splitFrom_pos Nat.one_pos
    omega

/-- `fzn_blob_levels_span_proof`. -/
def levelsSpanProof (ops : HashOps) (io : LevelsIo σ) (leaves : ℕ) (s : σ)
    (first count outCap : ℕ) : Except BlobErr (List Bytes32) :=
  spanProofFrom (levelsSubtree ops io leaves s) leaves first count outCap

/-! ## Storage -/

/-- A storage that returns what was written. -/
structure LevelsIo.Keeps (io : LevelsIo σ) : Prop where
  takes : ∀ s off node, ∃ s', io.write s off node = some s'
  holds : ∀ {s s' off node}, io.write s off node = some s' → io.read s' off = some node
  apart : ∀ {s s' off off' node}, io.write s off node = some s' →
    off + hashLen ≤ off' ∨ off' + hashLen ≤ off → io.read s' off' = io.read s off'

/-- The same storage, with the offsets written to it. -/
def LevelsIo.logged (io : LevelsIo σ) : LevelsIo (σ × List ℕ) where
  read s := io.read s.1
  write s off node := (io.write s.1 off node).map fun s' => (s', off :: s.2)

theorem LevelsIo.Keeps.logged {io : LevelsIo σ} (h : io.Keeps) (s : σ × List ℕ) (off : ℕ)
    (node : Bytes32) : ∃ s', io.write s.1 off node = some s' ∧
      io.logged.write s off node = some (s', off :: s.2) := by
  obtain ⟨s', hs'⟩ := h.takes s.1 off node
  exact ⟨s', hs', congrArg (Option.map _) hs'⟩

/-! ## Where the nodes are -/

theorem levelAt_mono (leaves : ℕ) {l l' : ℕ} (h : l ≤ l') : levelAt leaves l ≤ levelAt leaves l' := by
  induction l', h using Nat.le_induction with
  | base => exact Nat.le_refl _
  | succ l' _ ih => exact ih.trans (Nat.le_add_right _ _)

/-- A node over leaves there are is one of its level. -/
theorem lt_shiftRight {leaves level j : ℕ} (h : (j + 1) * 2 ^ level ≤ leaves) :
    j < leaves >>> level := by
  rw [Nat.shiftRight_eq_div_pow]
  exact (Nat.le_div_iff_mul_le (Nat.two_pow_pos _)).2 h

theorem nodeOffset_lt {leaves l l' j j' : ℕ} (hj : (j + 1) * 2 ^ l ≤ leaves) (hl : l < l') :
    nodeOffset leaves l j + hashLen ≤ nodeOffset leaves l' j' := by
  have hmono := levelAt_mono leaves (show l + 1 ≤ l' from hl)
  rw [levelAt] at hmono
  have := lt_shiftRight hj
  unfold nodeOffset hashLen
  omega

/-- **No two nodes overlap.** -/
theorem nodeOffset_apart {leaves l l' j j' : ℕ} (hj : (j + 1) * 2 ^ l ≤ leaves)
    (hj' : (j' + 1) * 2 ^ l' ≤ leaves) (hne : ¬(l = l' ∧ j = j')) :
    nodeOffset leaves l j + hashLen ≤ nodeOffset leaves l' j' ∨
      nodeOffset leaves l' j' + hashLen ≤ nodeOffset leaves l j := by
  rcases Nat.lt_trichotomy l l' with hl | rfl | hl
  · exact .inl (nodeOffset_lt hj hl)
  · unfold nodeOffset hashLen
    omega
  · exact .inr (nodeOffset_lt hj' hl)

theorem lt_levelsFrom {leaves room l level : ℕ} (hl : l ≤ level) (hroom : level < l + room)
    (hsome : leaves >>> level ≠ 0) : level < levelsFrom leaves room l := by
  induction room generalizing l with
  | zero => omega
  | succ room ih =>
    have hle : leaves >>> level ≤ leaves >>> l := by
      rw [Nat.shiftRight_eq_div_pow, Nat.shiftRight_eq_div_pow]
      exact Nat.div_le_div_left (Nat.pow_le_pow_right Nat.two_pos hl) (Nat.two_pow_pos _)
    rw [levelsFrom, if_pos fun hzero => hsome (Nat.le_zero.1 (hle.trans hzero.le))]
    rcases Nat.eq_or_lt_of_le hl with rfl | hlt
    · have hself : ∀ room l, l ≤ levelsFrom leaves room l := by
        intro room
        induction room with
        | zero => exact fun l => Nat.le_refl l
        | succ room ih =>
          intro l
          rw [levelsFrom]
          split
          next => exact (Nat.le_succ l).trans (ih (l + 1))
          next => exact Nat.le_refl l
      exact hself room (l + 1)
    · exact ih hlt (by omega)

/-- **Every node is inside the size the levels take.** -/
theorem nodeOffset_le {leaves level j : ℕ} (hmax : leaves ≤ maxLeaves) (hlevel : level < maxDepth)
    (hj : (j + 1) * 2 ^ level ≤ leaves) :
    nodeOffset leaves level j + hashLen ≤ levelsBytes leaves := by
  have hlt := lt_shiftRight hj
  have hlevels := @lt_levelsFrom leaves maxDepth 0 level (Nat.zero_le level) (by omega)
    (Nat.ne_of_gt (Nat.zero_lt_of_lt hlt))
  have hpos : 0 < leaves :=
    lt_of_lt_of_le (Nat.mul_pos (Nat.succ_pos j) (Nat.two_pow_pos level)) hj
  have hmono := levelAt_mono leaves (show level + 1 ≤ _ from hlevels)
  rw [levelAt] at hmono
  rw [levelsBytes, if_neg (by omega), nodeOffset, ← Nat.succ_mul]
  exact Nat.mul_le_mul_right _ (by omega)

end

/-! ## The levels agree with the array -/

variable {σ : Type}

/-! ## What is written -/

/-- The nodes complete in front of leaf `m`. -/
def Complete (m level j : ℕ) : Prop := (j + 1) * 2 ^ level ≤ m

/-- Those, and the ones leaf `m` completes below level `l`. -/
def CompleteTo (m l level j : ℕ) : Prop :=
  Complete m level j ∨ (j + 1) * 2 ^ level = m + 1 ∧ level < l

/-- A storage where just these nodes were written, each once. -/
structure Stored (io : LevelsIo σ) (H : Bytes → Bytes32) (f : ℕ → Bytes32) (leaves : ℕ)
    (done : ℕ → ℕ → Prop) (s : σ × List ℕ) : Prop where
  read : ∀ level j, done level j → io.read s.1 (nodeOffset leaves level j) =
    some (apex (node H) f (j * 2 ^ level) (2 ^ level))
  logged : ∀ off ∈ s.2, ∃ level j, done level j ∧ off = nodeOffset leaves level j
  once : s.2.Nodup

/-- What the builder holds of the levels whose last node waits for its sibling. -/
def Pending (H : Bytes → Bytes32) (f : ℕ → Bytes32) (m : ℕ) (pending : ℕ → Bytes32) : Prop :=
  ∀ level, m / 2 ^ level % 2 = 1 →
    pending level = apex (node H) f ((m / 2 ^ level - 1) * 2 ^ level) (2 ^ level)

section Built

variable {io : LevelsIo σ} {H : Bytes → Bytes32} {f : ℕ → Bytes32} {leaves : ℕ}
  {done done' : ℕ → ℕ → Prop} {s : σ × List ℕ}

theorem Stored.congr (h : Stored io H f leaves done s)
    (hiff : ∀ level j, done level j ↔ done' level j) : Stored io H f leaves done' s where
  read level j hdone := h.read level j ((hiff level j).2 hdone)
  logged off hoff := by
    obtain ⟨level, j, hdone, heq⟩ := h.logged off hoff
    exact ⟨level, j, (hiff level j).1 hdone, heq⟩
  once := h.once

/-- **A node written** where none was. -/
theorem Stored.put {l i : ℕ} (hkeeps : io.Keeps) (h : Stored io H f leaves done s)
    (hvalid : ∀ level j, done level j → (j + 1) * 2 ^ level ≤ leaves)
    (hin : (i + 1) * 2 ^ l ≤ leaves) (hnew : ¬done l i) :
    ∃ s', putNode io.logged leaves l i s (apex (node H) f (i * 2 ^ l) (2 ^ l)) = some s' ∧
      Stored io H f leaves (fun level j => done level j ∨ level = l ∧ j = i) s' := by
  obtain ⟨s', hwrite, hlog⟩ := hkeeps.logged s (nodeOffset leaves l i)
    (apex (node H) f (i * 2 ^ l) (2 ^ l))
  have hother : ∀ level j, done level j → ¬(l = level ∧ i = j) := by
    rintro level j hdone ⟨rfl, rfl⟩
    exact hnew hdone
  refine ⟨_, hlog, fun level j hdone => ?_, fun off hoff => ?_, ?_⟩
  · rcases hdone with hdone | ⟨rfl, rfl⟩
    · rw [hkeeps.apart hwrite (nodeOffset_apart hin (hvalid level j hdone)
        (hother level j hdone))]
      exact h.read level j hdone
    · exact hkeeps.holds hwrite
  · rcases List.mem_cons.1 hoff with rfl | hoff
    · exact ⟨l, i, .inr ⟨rfl, rfl⟩, rfl⟩
    · obtain ⟨level, j, hdone, heq⟩ := h.logged off hoff
      exact ⟨level, j, .inl hdone, heq⟩
  · refine List.nodup_cons.2 ⟨fun hmem => ?_, h.once⟩
    obtain ⟨level, j, hdone, heq⟩ := h.logged _ hmem
    have hapart := nodeOffset_apart hin (hvalid level j hdone) (hother level j hdone)
    rw [heq] at hapart
    unfold hashLen at hapart
    omega

/-- Leaf `m` completes node `i` of level `l`. -/
theorem div_of_completes {m l i : ℕ} (h : (i + 1) * 2 ^ l = m + 1) : m / 2 ^ l = i := by
  have hpos := Nat.two_pow_pos l
  rw [Nat.succ_mul] at h
  refine Nat.div_eq_of_lt_le (by omega) ?_
  rw [Nat.succ_mul]
  omega

theorem completeTo_succ {m l i level j : ℕ} (h : (i + 1) * 2 ^ l = m + 1) :
    CompleteTo m l level j ∨ level = l ∧ j = i ↔ CompleteTo m (l + 1) level j := by
  unfold CompleteTo
  constructor
  · rintro ((hdone | ⟨heq, hlt⟩) | ⟨rfl, rfl⟩)
    · exact .inl hdone
    · exact .inr ⟨heq, by omega⟩
    · exact .inr ⟨h, by omega⟩
  · rintro (hdone | ⟨heq, hlt⟩)
    · exact .inl (.inl hdone)
    · rcases Nat.lt_or_eq_of_le (Nat.le_of_lt_succ hlt) with hlt | rfl
      · exact .inl (.inr ⟨heq, hlt⟩)
      · have := Nat.eq_of_mul_eq_mul_right (Nat.two_pow_pos level) (heq.trans h.symm)
        exact .inr ⟨rfl, by omega⟩

/-- At a left child, leaf `m` completes nothing above. -/
theorem completeTo_even {m l i level j : ℕ} (h : (i + 1) * 2 ^ l = m + 1) (heven : i % 2 = 0) :
    CompleteTo m (l + 1) level j ↔ Complete (m + 1) level j := by
  unfold CompleteTo Complete
  constructor
  · rintro (hdone | ⟨heq, -⟩) <;> omega
  · intro hdone
    rcases Nat.lt_or_eq_of_le hdone with hlt | heq
    · exact .inl (by omega)
    · refine .inr ⟨heq, ?_⟩
      by_contra hlevel
      obtain ⟨d, rfl⟩ := Nat.exists_eq_add_of_le (show l + 1 ≤ level by omega)
      have hdvd : 2 ^ (l + 1) ∣ (i + 1) * 2 ^ l := by
        rw [h, ← heq]
        exact (Nat.pow_dvd_pow 2 (Nat.le_add_right _ _)).mul_left _
      rw [Nat.pow_succ, Nat.mul_comm (2 ^ l) 2] at hdvd
      have := Nat.dvd_of_mul_dvd_mul_right (Nat.two_pow_pos l) hdvd
      omega

/-- What waits behind leaf `m`, which ended as a left child. -/
theorem Pending.update {m l i : ℕ} {pending : ℕ → Bytes32} (hp : Pending H f m pending)
    (h : (i + 1) * 2 ^ l = m + 1) (heven : i % 2 = 0) :
    Pending H f (m + 1)
      (Function.update pending l (apex (node H) f (i * 2 ^ l) (2 ^ l))) := by
  intro level hodd
  rcases Nat.lt_trichotomy level l with hlt | rfl | hlt
  · obtain ⟨d, rfl⟩ := Nat.exists_eq_add_of_lt hlt
    rw [← h, show level + d + 1 = (d + 1) + level by omega, Nat.pow_add, ← Nat.mul_assoc,
      Nat.mul_div_cancel _ (Nat.two_pow_pos _), Nat.pow_succ, ← Nat.mul_assoc,
      Nat.mul_mod_left] at hodd
    omega
  · rw [← h, Nat.mul_div_cancel _ (Nat.two_pow_pos _), Function.update_self, Nat.add_sub_cancel]
  · have hsame : (m + 1) / 2 ^ level = m / 2 ^ level := by
      obtain ⟨d, rfl⟩ := Nat.exists_eq_add_of_lt hlt
      rw [show l + d + 1 = l + (1 + d) by omega, Nat.pow_add, ← Nat.div_div_eq_div_mul,
        ← Nat.div_div_eq_div_mul, ← h, Nat.mul_div_cancel _ (Nat.two_pow_pos _), Nat.pow_add,
        ← Nat.div_div_eq_div_mul, Nat.pow_one]
      have hdiv := div_of_completes h
      rw [hdiv, ← Nat.div_div_eq_div_mul, show (i + 1) / 2 = i / 2 by omega]
    rw [Function.update_of_ne (by omega), hsame]
    exact hp level (by rwa [hsame] at hodd)

/-- Leaf `m`'s node of level `l` written. -/
theorem Stored.put_completed {m l i : ℕ} (hkeeps : io.Keeps) (h : (i + 1) * 2 ^ l = m + 1)
    (hin : m + 1 ≤ leaves) (hs : Stored io H f leaves (CompleteTo m l) s) :
    ∃ s', putNode io.logged leaves l i s (apex (node H) f (i * 2 ^ l) (2 ^ l)) = some s' ∧
      Stored io H f leaves (CompleteTo m (l + 1)) s' := by
  obtain ⟨s', hput, hs'⟩ := hs.put hkeeps (l := l) (i := i) (fun level j hdone => by
    rcases hdone with hdone | ⟨heq, -⟩
    · exact hdone.trans (by omega)
    · omega) (h ▸ hin) (by
    rintro (hdone | ⟨-, hlt⟩)
    · rw [Complete] at hdone
      omega
    · exact Nat.lt_irrefl _ hlt)
  exact ⟨s', hput, hs'.congr fun level j => completeTo_succ h⟩

/-- **A leaf's nodes written** from level `l` up. -/
theorem carryUp_spec {room l i m : ℕ} {pending : ℕ → Bytes32} (hkeeps : io.Keeps)
    (hroom : l + room + 1 = maxDepth) (h : (i + 1) * 2 ^ l = m + 1) (hlt : m + 1 < maxLeaves)
    (hin : m + 1 ≤ leaves) (hp : Pending H f m pending)
    (hs : Stored io H f leaves (CompleteTo m l) s) :
    ∃ pending' s', carryUp (answering H) io.logged leaves pending room l i
        (apex (node H) f (i * 2 ^ l) (2 ^ l)) s = .ok (pending', s') ∧
      Pending H f (m + 1) pending' ∧ Stored io H f leaves (Complete (m + 1)) s' := by
  induction room generalizing l i s with
  | zero =>
    obtain ⟨s', hput, hs'⟩ := hs.put_completed hkeeps h hin
    have heven : i % 2 = 0 := by
      by_contra hodd
      have hmul := Nat.mul_le_mul_right (2 ^ l) (show 2 ≤ i + 1 by omega)
      rw [h, ← Nat.pow_succ', show l.succ = maxDepth from hroom] at hmul
      exact absurd hlt (not_lt.2 hmul)
    refine ⟨_, s', ?_, hp.update h heven, hs'.congr fun level j => completeTo_even h heven⟩
    rw [carryUp, hput]
    exact if_pos heven
  | succ room ih =>
    obtain ⟨s', hput, hs'⟩ := hs.put_completed hkeeps h hin
    rw [carryUp, hput]
    by_cases heven : i % 2 = 0
    · exact ⟨_, s', if_pos heven, hp.update h heven,
        hs'.congr fun level j => completeTo_even h heven⟩
    · -- a right child: with the node that waits it is the next level's
      have hwait := hp l (by rw [div_of_completes h]; omega)
      rw [div_of_completes h] at hwait
      have hstart : (i - 1) * 2 ^ l = i / 2 * 2 ^ (l + 1) := by
        rw [Nat.pow_succ', ← Nat.mul_assoc, show i / 2 * 2 = i - 1 by omega]
      have hnode : node H (pending l) (apex (node H) f (i * 2 ^ l) (2 ^ l)) =
          apex (node H) f (i / 2 * 2 ^ (l + 1)) (2 ^ (l + 1)) := by
        rw [hwait, apex_two_pow, ← hstart, ← Nat.succ_mul, show (i - 1).succ = i by omega]
      have hnext : (i / 2 + 1) * 2 ^ (l + 1) = m + 1 := by
        rw [← h, Nat.pow_succ', ← Nat.mul_assoc, show (i / 2 + 1) * 2 = i + 1 by omega]
      obtain ⟨pending', s'', hcarry, hp', hs''⟩ := ih (by omega) hnext hs'
      refine ⟨pending', s'', ?_, hp', hs''⟩
      rw [← hnode] at hcarry
      exact (if_neg heven).trans hcarry

/-- The nodes the last leaf of the largest blob completes are all right children. -/
theorem odd_of_largest {room l i : ℕ} (hroom : l + room + 1 = maxDepth)
    (h : (i + 1) * 2 ^ l = maxLeaves) : ¬i % 2 = 0 := by
  have hup : (i + 1) * 2 ^ l = 2 ^ (room + 1) * 2 ^ l := by
    rw [h, maxLeaves, ← hroom, ← Nat.pow_add]
    congr 1
    omega
  have hi := Nat.eq_of_mul_eq_mul_right (Nat.two_pow_pos l) hup
  rw [Nat.pow_succ] at hi
  omega

/-- **The last leaf of the largest blob** carries past the levels there is room for. -/
theorem carryUp_full {room l i : ℕ} {pending : ℕ → Bytes32} {x : Bytes32} (hkeeps : io.Keeps)
    (hroom : l + room + 1 = maxDepth) (h : (i + 1) * 2 ^ l = maxLeaves) :
    carryUp (answering H) io.logged leaves pending room l i x s = .error .shape := by
  have hodd := odd_of_largest hroom h
  induction room generalizing l i s x with
  | zero =>
    obtain ⟨s', -, hput⟩ := hkeeps.logged s (nodeOffset leaves l i) x
    rw [carryUp, putNode, hput]
    exact if_neg hodd
  | succ room ih =>
    obtain ⟨s', -, hput⟩ := hkeeps.logged s (nodeOffset leaves l i) x
    have hnext : (i / 2 + 1) * 2 ^ (l + 1) = maxLeaves := by
      rw [← h, Nat.pow_succ', ← Nat.mul_assoc, show (i / 2 + 1) * 2 = i + 1 by omega]
    have hroom' : l + 1 + room + 1 = maxDepth := by omega
    rw [carryUp, putNode, hput]
    exact (if_neg hodd).trans (ih (s := (s', _)) hroom' hnext (odd_of_largest hroom' hnext))

/-! ## A whole blob -/

/-- A builder and its storage behind the leaves pushed so far. -/
structure Built (io : LevelsIo σ) (H : Bytes → Bytes32) (f : ℕ → Bytes32) (leaves : ℕ)
    (b : LevelsBuilder × (σ × List ℕ)) : Prop where
  size : b.1.leaves = leaves
  pending : Pending H f b.1.pushed b.1.pending
  stored : Stored io H f leaves (Complete b.1.pushed) b.2

variable {b : LevelsBuilder × (σ × List ℕ)}

theorem not_complete_zero (level j : ℕ) : ¬Complete 0 level j := by
  intro h
  exact absurd h (not_le.2 (Nat.mul_pos (Nat.succ_pos j) (Nat.two_pow_pos level)))

theorem Built.begin (io : LevelsIo σ) (H : Bytes → Bytes32) (f : ℕ → Bytes32) (leaves : ℕ)
    (s : σ) : Built io H f leaves (⟨leaves, 0, fun _ => 0⟩, s, []) where
  size := rfl
  pending level hodd := by
    rw [Nat.zero_div] at hodd
    cases hodd
  stored :=
    { read := fun level j hdone => absurd hdone (not_complete_zero level j)
      logged := fun off hoff => absurd hoff List.not_mem_nil
      once := List.nodup_nil }

/-- Leaf `m` completes no node of a level below 0. -/
theorem completeTo_zero (m level j : ℕ) : Complete m level j ↔ CompleteTo m 0 level j :=
  ⟨.inl, fun h => h.resolve_right fun hlt => Nat.not_lt_zero _ hlt.2⟩

/-- **A leaf pushed** that is not the last of the largest blob. -/
theorem Built.push (hkeeps : io.Keeps) (hb : Built io H f leaves b)
    (hmore : b.1.pushed < leaves) (hlt : b.1.pushed + 1 < maxLeaves) :
    ∃ b', levelsPush (answering H) io.logged b (f b.1.pushed) = .ok b' ∧
      Built io H f leaves b' ∧ b'.1.pushed = b.1.pushed + 1 := by
  obtain ⟨pending', s', hcarry, hp, hs⟩ := carryUp_spec (i := b.1.pushed) hkeeps
    (show 0 + (maxDepth - 1) + 1 = maxDepth from rfl) (by omega) hlt hmore hb.pending
    (hb.stored.congr (completeTo_zero _))
  rw [Nat.pow_zero, Nat.mul_one, apex_one] at hcarry
  refine ⟨({ b.1 with pushed := b.1.pushed + 1, pending := pending' }, s'), ?_,
    ⟨hb.size, hp, hs⟩, rfl⟩
  rw [levelsPush, hb.size, if_neg (not_le.2 hmore), hcarry]
  rfl

theorem Built.push_last (hkeeps : io.Keeps) (hb : Built io H f leaves b)
    (hlast : b.1.pushed + 1 = maxLeaves) (hmore : b.1.pushed < leaves) (x : Bytes32) :
    levelsPush (answering H) io.logged b x = .error .shape := by
  rw [levelsPush, hb.size, if_neg (not_le.2 hmore),
    carryUp_full (l := 0) (i := b.1.pushed) hkeeps rfl (by omega)]
  rfl

theorem Built.pushes {l : List Bytes32} (hkeeps : io.Keeps) (hb : Built io H f leaves b)
    (hl : ∀ i, i < l.length → l[i]? = some (f (b.1.pushed + i)))
    (hin : b.1.pushed + l.length ≤ leaves) (hlt : b.1.pushed + l.length < maxLeaves) :
    ∃ b', levelsPushes (answering H) io.logged b l = .ok b' ∧ Built io H f leaves b' ∧
      b'.1.pushed = b.1.pushed + l.length := by
  induction l generalizing b with
  | nil => exact ⟨b, rfl, hb, rfl⟩
  | cons x l ih =>
    rw [List.length_cons] at hin hlt
    obtain rfl : x = f b.1.pushed := Option.some.inj (hl 0 (by simp))
    obtain ⟨b', hpush, hb', hpushed⟩ := hb.push hkeeps (by omega) (by omega)
    obtain ⟨b'', hpushes, hb'', hpushed'⟩ := ih hb' (fun i hi => by
      have := hl (i + 1) (by simpa using hi)
      rwa [List.getElem?_cons_succ, show b.1.pushed + (i + 1) = b'.1.pushed + i by omega] at this)
      (by omega) (by omega)
    refine ⟨b'', ?_, hb'', by rw [hpushed', hpushed, List.length_cons]; omega⟩
    rw [levelsPushes, List.foldlM_cons, hpush]
    exact hpushes

/-! ## Reading it back -/

theorem levelFrom_eq {fuel l d : ℕ} (hd : d ≤ fuel) :
    levelFrom fuel l (2 ^ (l + d)) = l + d := by
  induction fuel generalizing l d with
  | zero =>
    obtain rfl : d = 0 := by omega
    rfl
  | succ fuel ih =>
    rw [levelFrom, Nat.one_shiftLeft]
    cases d with
    | zero => rw [if_neg (by simp), Nat.add_zero]
    | succ d =>
      rw [if_pos (Nat.pow_lt_pow_right one_lt_two (by omega)),
        show l + (d + 1) = l + 1 + d by omega]
      exact ih (by omega)

/-- **A subtree read back** is the apex over its leaves, wherever it begins. -/
theorem levelsSubtree_eq {s : σ × List ℕ} (hmax : leaves ≤ maxLeaves)
    (hs : Stored io H f leaves (Complete leaves) s) {lo n : ℕ} (hn : 0 < n)
    (hin : lo + n ≤ leaves) :
    levelsSubtree (answering H) io leaves s.1 lo n = .ok (apex (node H) f lo n) := by
  induction n using Nat.strongRecOn generalizing lo with
  | ind n ih =>
    rw [levelsSubtree, if_neg (by omega)]
    split
    next hperfect =>
      obtain ⟨l, rfl⟩ := (Nat.and_sub_one_eq_zero_iff_isPowerOfTwo (by omega)).1 hperfect.1
      have haligned := hperfect.2
      rw [Nat.and_two_pow_sub_one_eq_mod] at haligned
      obtain ⟨j, rfl⟩ := Nat.dvd_of_mod_eq_zero haligned
      have hl : l ≤ 64 := by
        have hle : 2 ^ l ≤ 2 ^ maxDepth := le_trans (by omega) hmax
        exact ((Nat.pow_le_pow_iff_right one_lt_two).1 hle).trans (by decide)
      have hlevel : levelFrom 64 0 (2 ^ l) = l := by
        have := levelFrom_eq (l := 0) hl
        rwa [Nat.zero_add] at this
      have hread := hs.read l j (by rw [Complete, Nat.succ_mul, Nat.mul_comm]; omega)
      dsimp only
      rw [hlevel, Nat.shiftRight_eq_div_pow, Nat.mul_div_cancel_left _ (Nat.two_pow_pos l)]
      rw [nodeOffset] at hread
      rw [hread, Nat.mul_comm]
    next hragged =>
      have hmany : 1 < n := by
        by_contra hone
        obtain rfl : n = 1 := by omega
        exact hragged ⟨rfl, Nat.and_zero lo⟩
      have hsplit : splitBelow n = splitSize n := splitAt_eq hmany (by omega)
      have hlt := splitSize_lt hmany
      have hpos := splitSize_pos n
      rw [dif_pos hmany]
      dsimp only
      rw [hsplit, ih _ hlt hpos (by omega), ih (n - splitSize n) (by omega) (by omega) (by omega),
        apex_of_lt hmany]
      rfl

end Built

/-! ## The array's prover and the levels' -/

/-- What a blob's levels are, once its leaves are pushed: each node was written once and in
place, and what is read back is what the array gives. -/
structure LevelsProve (io : LevelsIo σ) (H : Bytes → Bytes32) (leafHashes : List Bytes32)
    (s : σ × List ℕ) : Prop where
  inside : ∀ off ∈ s.2, off + hashLen ≤ levelsBytes leafHashes.length
  apart : s.2.Pairwise fun off off' => off + hashLen ≤ off' ∨ off' + hashLen ≤ off
  subtree : ∀ lo n, Part 0 leafHashes.length lo n →
    levelsSubtree (answering H) io leafHashes.length s.1 lo n =
      .ok (apex (node H) (leafAt leafHashes) lo n)
  proof : ∀ first count outCap,
    levelsSpanProof (answering H) io leafHashes.length s.1 first count outCap =
      spanProofBuild (answering H) leafHashes first count outCap
  canonical : ∀ first count, spanIsCanonical leafHashes.length first count = true →
    ∃ siblings, siblings.length ≤ maxDepth ∧ ∀ outCap, siblings.length * hashLen ≤ outCap →
      levelsSpanProof (answering H) io leafHashes.length s.1 first count outCap = .ok siblings

/-- The leaves are all pushed, into a storage `s`, and the levels are what they should be. -/
def LevelsAgree (io : LevelsIo σ) (H : Bytes → Bytes32) (leafHashes : List Bytes32) (s : σ) :
    Prop :=
  ∃ b₀ b, levelsBegin leafHashes.length = .ok b₀ ∧
    levelsPushes (answering H) io.logged (b₀, s, []) leafHashes = .ok b ∧
    LevelsProve io H leafHashes b.2

variable {io : LevelsIo σ} {H : Bytes → Bytes32} {leafHashes : List Bytes32}

theorem levelsBegin_ok (hsome : leafHashes ≠ []) (hmax : leafHashes.length ≤ maxLeaves) :
    levelsBegin leafHashes.length = .ok ⟨leafHashes.length, 0, fun _ => 0⟩ := by
  have := List.length_pos_iff.2 hsome
  rw [levelsBegin, if_neg (by omega)]

/-- The offsets of nodes complete in a blob that is not the largest are inside and apart. -/
theorem Stored.offsets {f : ℕ → Bytes32} {leaves : ℕ} {s : σ × List ℕ} (hlt : leaves < maxLeaves)
    (hs : Stored io H f leaves (Complete leaves) s) :
    (∀ off ∈ s.2, off + hashLen ≤ levelsBytes leaves) ∧
      s.2.Pairwise fun off off' => off + hashLen ≤ off' ∨ off' + hashLen ≤ off := by
  constructor
  · intro off hoff
    obtain ⟨level, j, hdone, rfl⟩ := hs.logged off hoff
    refine nodeOffset_le hlt.le ?_ hdone
    have hle : 2 ^ level ≤ leaves :=
      le_trans (Nat.le_mul_of_pos_left _ (Nat.succ_pos j)) hdone
    exact (Nat.pow_lt_pow_iff_right one_lt_two).1 (lt_of_le_of_lt hle hlt)
  · refine hs.once.imp_of_mem fun {off off'} hoff hoff' hne => ?_
    obtain ⟨level, j, hdone, rfl⟩ := hs.logged off hoff
    obtain ⟨level', j', hdone', rfl⟩ := hs.logged off' hoff'
    refine nodeOffset_apart hdone hdone' ?_
    rintro ⟨rfl, rfl⟩
    exact hne rfl

/-- **As many leaves as the largest blob has** are not all pushed. -/
theorem levelsPushes_full (hkeeps : io.Keeps) (s : σ) (hfull : leafHashes.length = maxLeaves) :
    levelsPushes (answering H) io.logged (⟨leafHashes.length, 0, fun _ => 0⟩, s, []) leafHashes =
      .error .shape := by
  have hpos : 0 < leafHashes.length := by
    rw [hfull]
    exact Nat.two_pow_pos _
  obtain ⟨front, x, rfl⟩ : ∃ front x, leafHashes = front ++ [x] :=
    ⟨_, _, (List.dropLast_concat_getLast (List.length_pos_iff.1 hpos)).symm⟩
  rw [List.length_append, List.length_singleton] at hfull ⊢
  obtain ⟨b, hpushes, hb, hpushed⟩ :=
    (Built.begin io H (leafAt front) (front.length + 1) s).pushes (l := front) hkeeps
      (fun i hi => by rw [Nat.zero_add]; exact getElem?_getD hi)
      (by rw [Nat.zero_add]; omega) (by rw [Nat.zero_add]; omega)
  rw [Nat.zero_add] at hpushed
  have hlast := hb.push_last hkeeps (by rw [hpushed]; exact hfull) (by omega) x
  rw [levelsPushes] at hpushes ⊢
  rw [List.foldlM_append, hpushes]
  show levelsPush (answering H) io.logged b x >>= pure = _
  rw [hlast]
  rfl

/-- **The levels of a blob agree with the array** just when it is not the largest one. -/
theorem levels_agree_iff (hkeeps : io.Keeps) (s : σ) (hsome : leafHashes ≠ [])
    (hmax : leafHashes.length ≤ maxLeaves) :
    LevelsAgree io H leafHashes s ↔ leafHashes.length < maxLeaves := by
  constructor
  · rintro ⟨b₀, b, hbegin, hpushes, -⟩
    refine lt_of_le_of_ne hmax fun hfull => ?_
    rw [levelsBegin_ok hsome hmax] at hbegin
    obtain rfl := Except.ok.inj hbegin
    rw [levelsPushes_full hkeeps s hfull] at hpushes
    cases hpushes
  · intro hlt
    have hpos := List.length_pos_iff.2 hsome
    obtain ⟨b, hpushes, hb, hpushed⟩ :=
      (Built.begin io H (leafAt leafHashes) leafHashes.length s).pushes (l := leafHashes) hkeeps
        (fun i hi => by rw [Nat.zero_add]; exact getElem?_getD hi)
        (Nat.zero_add _).le (by rwa [Nat.zero_add])
    rw [Nat.zero_add] at hpushed
    have hstored := hb.stored
    rw [hpushed] at hstored
    have hsubtree : ∀ lo n, 0 < n → lo + n ≤ leafHashes.length →
        levelsSubtree (answering H) io leafHashes.length b.2.1 lo n =
          .ok (apex (node H) (leafAt leafHashes) lo n) :=
      fun lo n hn hin => levelsSubtree_eq hmax hstored hn hin
    obtain ⟨hinside, hapart⟩ := hstored.offsets hlt
    refine ⟨_, b, levelsBegin_ok hsome hmax, hpushes, hinside, hapart, fun lo n hpart => ?_,
      fun first count outCap => ?_, fun first count hcanonical =>
        spanProofFrom_canonical hsubtree hcanonical⟩
    · have := hpart.bounds
      exact hsubtree lo n (hpart.pos hpos) (by omega)
    · refine spanProofFrom_congr fun lo n hn hin => ?_
      rw [hsubtree lo n hn hin, subtreeRoot_eq hn hin (by omega)]

/-- A storage that holds what is written where it was written. -/
def cellIo : LevelsIo (ℕ → Option Bytes32) where
  read s off := s off
  write s off node := some (Function.update s off (some node))

theorem cellIo_keeps : cellIo.Keeps where
  takes s off node := ⟨_, rfl⟩
  holds {s s' off node} h := by
    obtain rfl := Option.some.inj h
    exact Function.update_self ..
  apart {s s' off off' node} h happart := by
    obtain rfl := Option.some.inj h
    refine Function.update_of_ne ?_ ..
    unfold hashLen at happart
    omega

/-- Five leaves, whose levels have a ragged edge. -/
theorem levels_agree_five :
    LevelsAgree cellIo (fun input => BitVec.ofNat 256 (getBe input 1 64)) [1, 2, 3, 4, 5]
      fun _ => none :=
  (levels_agree_iff cellIo_keeps (fun _ => none) (by decide) (by decide)).2 (by decide)

/-- **Of the largest blob's leaves** the last is refused. -/
theorem levels_agree_largest :
    ¬LevelsAgree cellIo (fun input => BitVec.ofNat 256 (getBe input 1 64))
      (List.replicate maxLeaves 1) fun _ => none := by
  rintro ⟨b₀, b, hbegin, hpushes, -⟩
  have hlen : (List.replicate maxLeaves (1 : Bytes32)).length = maxLeaves := List.length_replicate
  have hsome : List.replicate maxLeaves (1 : Bytes32) ≠ [] := by
    rw [← List.length_pos_iff, hlen]
    exact Nat.two_pow_pos _
  rw [levelsBegin_ok hsome hlen.le] at hbegin
  obtain rfl := Except.ok.inj hbegin
  rw [levelsPushes_full cellIo_keeps _ hlen] at hpushes
  cases hpushes

end Blob
end Fuzznet
