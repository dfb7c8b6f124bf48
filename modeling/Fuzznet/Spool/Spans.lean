/-
# The spans of a blob

What `fzn_blob_span_is_canonical`, `fzn_blob_span_largest_at`, `fzn_blob_span_root` and the
proofs of spans of `blob/blob.c` come to together (`OneSpan`): the spans told canonical are the
nodes of the tree, each has a proof, and a proof accepted is of what stands there.

The root of a span pushes its leaf hashes, and the tree of `FZN_BLOB_MAX_LEAVES` refuses its
last one, so the largest blob has no root as the span of itself.
-/

import Fuzznet.Spool.Plan

namespace Fuzznet
namespace Spool

open Wire Lib Blob

variable {H : Bytes → Bytes32} {leafHashes : List Bytes32} {first count : ℕ}

/-- What makes a span of a blob a node of its tree: it is told from any other range, the largest
at its leaf is found, its root is accepted with the proof built for it, and nothing else is under
a hash without collisions. -/
structure OneSpan (H : Bytes → Bytes32) (leafHashes : List Bytes32) (first count : ℕ) :
    Prop where
  canonical : spanIsCanonical leafHashes.length first count = true ↔
    Part 0 leafHashes.length first count
  largest : ∀ maxCount, first < leafHashes.length → 1 ≤ maxCount →
    0 < spanLargestAt leafHashes.length first maxCount ∧
      IsGreatest {m | Part 0 leafHashes.length first m ∧ m ≤ maxCount}
        (spanLargestAt leafHashes.length first maxCount)
  proved : spanIsCanonical leafHashes.length first count = true →
    ∃ span siblings, siblings.length ≤ maxDepth ∧
      spanRoot (answering H) ((leafHashes.drop first).take count) = .ok span ∧
      (∀ outCap, siblings.length * hashLen ≤ outCap →
        spanProofBuild (answering H) leafHashes first count outCap = .ok siblings) ∧
      spanProofVerify (answering H) span first count leafHashes.length siblings
        (rootOf H leafHashes) = .ok ()
  pinned : ∀ span leafCount siblings,
    (answering H).InjOn
      (treeInputs H leafHashes ∪ spanInputs H span first count leafCount siblings) →
    spanProofVerify (answering H) span first count leafCount siblings (rootOf H leafHashes) =
        .ok () →
      leafCount = leafHashes.length ∧ spanIsCanonical leafCount first count = true ∧
        span = apex (node H) (leafAt leafHashes) first count

/-- The largest blob as a span of its own has no root. -/
theorem OneSpan.not_largest (h : OneSpan H leafHashes first count) :
    ¬(leafHashes.length = maxLeaves ∧ first = 0 ∧ count = maxLeaves) := by
  rintro ⟨hfull, rfl, rfl⟩
  have hpos : 0 < leafHashes.length := hfull ▸ Nat.two_pow_pos _
  obtain ⟨span, -, -, hroot, -⟩ := h.proved (h.canonical.2 (hfull ▸ .whole))
  rw [List.drop_zero, List.take_of_length_le hfull.le, spanRoot_largest hfull] at hroot
  cases hroot

/-- **Every span of a blob is a node of its tree** but the largest blob as one. -/
theorem one_span_iff (hsome : leafHashes ≠ []) (hmax : leafHashes.length ≤ maxLeaves)
    (first count : ℕ) : OneSpan H leafHashes first count ↔
      ¬(leafHashes.length = maxLeaves ∧ first = 0 ∧ count = maxLeaves) := by
  have hpos := List.length_pos_iff.2 hsome
  refine ⟨OneSpan.not_largest, fun hspare => ?_⟩
  exact {
    canonical := spanIsCanonical_iff hpos hmax
    largest := by
      intro maxCount hfirst hcount
      obtain ⟨hfound, hle, hpart⟩ := spanLargestAt_spec hfirst hmax hcount
      exact ⟨hfound, ⟨hpart, hle⟩, fun m hm => le_spanLargestAt hm.1 hm.2 hpos hmax⟩
    proved := by
      intro hcanonical
      have hpart := (spanIsCanonical_iff hpos hmax).1 hcanonical
      obtain ⟨siblings, hle, hbuild, hverify⟩ := spanProofBuild_accepted hpart hpos hmax
      have hbounds := hpart.bounds
      exact ⟨_, siblings, hle, spanRoot_slice (hpart.pos hpos) (by omega) (by omega), hbuild,
        hverify⟩
    pinned := by
      intro span leafCount siblings hinj h
      obtain rfl := spanProofVerify_count hmax hinj h
      obtain ⟨hpart, hspan⟩ := spanProofVerify_pins hinj Set.subset_union_left
        Set.subset_union_right h
      exact ⟨rfl, spanIsCanonical_of_part hpart hpos hmax, hspan⟩ }

/-- The last two of three leaves are no span, and the first two are one. -/
theorem one_span_three :
    OneSpan (fun input => BitVec.ofNat 256 (getBe input 1 64)) [1, 2, 3] 1 2 ∧
      OneSpan (fun input => BitVec.ofNat 256 (getBe input 1 64)) [1, 2, 3] 0 2 :=
  ⟨(one_span_iff (by decide) (by decide) 1 2).2 (by decide),
    (one_span_iff (by decide) (by decide) 0 2).2 (by decide)⟩

/-- **The largest blob has a span without a root**: itself. -/
theorem one_span_largest :
    ¬OneSpan (fun input => BitVec.ofNat 256 (getBe input 1 64)) (List.replicate maxLeaves 1) 0
      maxLeaves :=
  fun h => h.not_largest ⟨by rw [List.length_replicate], rfl, rfl⟩

end Spool
end Fuzznet
