/-
# Proofs of spans

`span_walk` of `blob/blob.c` and the proofs made with it: the descent to a span of leaves
that is a subtree, which takes the sibling at every split from wherever the caller has it.

Two providers that agree on the subtrees inside the blob make the same proofs
(`spanProofFrom_congr`), and a canonical span has one (`spanProofFrom_canonical`).  The canonical
spans are the subtrees (`spanIsCanonical_iff`).

`fzn_blob_leaf_hash`, `fzn_blob_span_root` and `fzn_blob_span_proof_verify` read them.  A span
accepted under a root has the leaves that stand there in the tree of the root
(`spanProofVerify_pins`), where no two of the inputs hashed share a hash: the climb pins the
subtree's apex, and the apex its leaves (`apex_pins`).
-/

import Fuzznet.Blob.Proof

namespace Fuzznet
namespace Blob

open Wire Lib

/-- `fzn_blob_subtree_t`: the root over `[lo, lo + n)`. -/
abbrev Subtree := ℕ → ℕ → Except BlobErr Bytes32

/-- The loop of `span_walk`, with `room` levels left; `sibling` is what is done for the sibling
over `[lo, lo + n)` at a depth. -/
@[grind =] def spanDown (sibling : ℕ → Subtree) (first count : ℕ) :
    ℕ → ℕ → ℕ → Except BlobErr (List Bytes32)
  | 0, lo, n => if lo = first ∧ n = count then .ok [] else .error .shape
  | room + 1, lo, n =>
    if lo = first ∧ n = count then .ok []
    else if n ≤ 1 then .error .shape
    else
      let depth := maxDepth - (room + 1)
      let k := splitAt n
      if first + count ≤ lo + k then do
        let sib ← sibling depth (lo + k) (n - k)
        let rest ← spanDown sibling first count room lo k
        .ok (sib :: rest)
      else if lo + k ≤ first then do
        let sib ← sibling depth lo k
        let rest ← spanDown sibling first count room (lo + k) (n - k)
        .ok (sib :: rest)
      else .error .shape

/-- `span_walk`. -/
@[grind =] def spanWalk (sibling : ℕ → Subtree) (leafCount first count : ℕ) :
    Except BlobErr (List Bytes32) :=
  if count = 0 ∨ leafCount - count < first then .error .malformed
  else spanDown sibling first count maxDepth 0 leafCount

/-- The sibling at a depth, into a buffer of `outCap` bytes. -/
@[grind =] def siblingInto (subtree : Subtree) (outCap depth lo n : ℕ) : Except BlobErr Bytes32 :=
  if outCap < (depth + 1) * hashLen then .error .malformed else subtree lo n

/-- The span is one inside a blob. -/
@[grind =] def spanInside (leafCount first count : ℕ) : Bool :=
  !(leafCount == 0 || decide (maxLeaves < leafCount)) &&
    !(count == 0 || decide (leafCount < count) || decide (leafCount - count < first))

/-- `fzn_blob_span_is_canonical`: the walk with no buffer. -/
@[grind =] def spanIsCanonical (leafCount first count : ℕ) : Bool :=
  spanInside leafCount first count &&
    (match spanWalk (fun _ _ _ => .ok 0) leafCount first count with
      | .ok _ => true
      | .error _ => false)

/-- `fzn_blob_span_proof_from`. -/
def spanProofFrom (subtree : Subtree) (leafCount first count outCap : ℕ) :
    Except BlobErr (List Bytes32) :=
  if spanInside leafCount first count = false then .error .malformed
  else spanWalk (siblingInto subtree outCap) leafCount first count

/-- `fzn_blob_span_proof_build`. -/
def spanProofBuild (ops : HashOps) (leafHashes : List Bytes32) (first count outCap : ℕ) :
    Except BlobErr (List Bytes32) :=
  if spanInside leafHashes.length first count = false then .error .malformed
  else spanWalk (siblingInto (subtreeRoot ops leafHashes) outCap) leafHashes.length first count

/-! ## What a walk asks for -/

/-- **A walk asks for subtrees of the range it is in**, and nothing else of its provider. -/
theorem spanDown_congr {sibling sibling' : ℕ → Subtree} {first count room lo n bound : ℕ}
    (hlen : lo + n ≤ bound) (hmax : n ≤ maxLeaves)
    (h : ∀ depth lo' n', 0 < n' → lo' + n' ≤ bound →
      sibling depth lo' n' = sibling' depth lo' n') :
    spanDown sibling first count room lo n = spanDown sibling' first count room lo n := by
  induction room generalizing lo n with
  | zero => rfl
  | succ room ih =>
    rw [spanDown, spanDown]
    split
    next => rfl
    next =>
      split
      next => rfl
      next hmany =>
        have hlt := splitSize_lt (show 1 < n by omega)
        have hpos := splitSize_pos n
        rw [splitAt_eq (by omega) hmax]
        dsimp only
        split
        next => rw [h _ _ _ (by omega) (by omega), ih (by omega) (by omega)]
        next =>
          split
          next => rw [h _ _ _ (by omega) (by omega), ih (by omega) (by omega)]
          next => rfl

theorem spanProofFrom_congr {subtree subtree' : Subtree} {leafCount first count outCap : ℕ}
    (h : ∀ lo n, 0 < n → lo + n ≤ leafCount → subtree lo n = subtree' lo n) :
    spanProofFrom subtree leafCount first count outCap =
      spanProofFrom subtree' leafCount first count outCap := by
  unfold spanProofFrom
  split
  next => rfl
  next hinside =>
    rw [Bool.not_eq_false, spanInside, Bool.and_eq_true, Bool.not_eq_true', Bool.or_eq_false_iff,
      decide_eq_false_iff_not, not_lt] at hinside
    unfold spanWalk
    split
    next => rfl
    next =>
      refine spanDown_congr (Nat.zero_add _).le hinside.1.2 fun depth lo n hn hle => ?_
      rw [siblingInto, siblingInto, h lo n hn hle]

/-- A sibling with room for it is what is answered, and leaves room for those behind it. -/
theorem siblingInto_ok {subtree : Subtree} {outCap room len lo n : ℕ} {b : Bytes32}
    (hroom : room + 1 ≤ maxDepth) (hb : subtree lo n = .ok b)
    (hcap : (maxDepth - (room + 1) + (len + 1)) * hashLen ≤ outCap) :
    siblingInto subtree outCap (maxDepth - (room + 1)) lo n = .ok b ∧
      (maxDepth - room + len) * hashLen ≤ outCap := by
  have hsame : maxDepth - (room + 1) + (len + 1) = maxDepth - room + len := by omega
  refine ⟨?_, hsame ▸ hcap⟩
  rw [siblingInto, if_neg, hb]
  exact not_lt.2 ((Nat.mul_le_mul_right _ (by omega)).trans hcap)

/-- **A walk that gets to its span** gets there with any provider that answers, given the
room. -/
theorem spanDown_ok {g : ℕ → ℕ → Bytes32} {subtree : Subtree} {first count room lo n bound : ℕ}
    {l : List Bytes32} (hroom : room ≤ maxDepth) (hlen : lo + n ≤ bound) (hmax : n ≤ maxLeaves)
    (hg : ∀ lo' n', 0 < n' → lo' + n' ≤ bound → subtree lo' n' = .ok (g lo' n'))
    (h : spanDown (fun _ _ _ => .ok 0) first count room lo n = .ok l) :
    ∃ siblings, siblings.length = l.length ∧ siblings.length ≤ room ∧
      ∀ outCap, (maxDepth - room + siblings.length) * hashLen ≤ outCap →
        spanDown (siblingInto subtree outCap) first count room lo n = .ok siblings := by
  induction room generalizing lo n l with
  | zero =>
    rw [spanDown] at h
    split at h
    next hspan =>
      obtain rfl := Except.ok.inj h
      exact ⟨[], rfl, Nat.le_refl _, fun _ _ => by rw [spanDown, if_pos hspan]⟩
    next => cases h
  | succ room ih =>
    rw [spanDown] at h
    split at h
    next hspan =>
      obtain rfl := Except.ok.inj h
      exact ⟨[], rfl, Nat.zero_le _, fun _ _ => by rw [spanDown, if_pos hspan]⟩
    next hspan =>
      obtain ⟨hmany, h⟩ := past_check h nofun
      have hlt := splitSize_lt (show 1 < n by omega)
      have hpos := splitSize_pos n
      have hsplit := splitAt_eq (show 1 < n by omega) hmax
      dsimp only at h
      rw [hsplit] at h
      split at h
      next hleft =>
        obtain ⟨sib, -, h⟩ := bind_ok_iff.1 h
        obtain ⟨l', hrest, h⟩ := bind_ok_iff.1 h
        obtain rfl := Except.ok.inj h
        obtain ⟨siblings, hsame, hle, hwalk⟩ := ih (by omega) (by omega) (by omega) hrest
        refine ⟨g (lo + splitSize n) (n - splitSize n) :: siblings, by simp [hsame],
          Nat.succ_le_succ hle, fun outCap hcap => ?_⟩
        obtain ⟨hsib, hcap'⟩ := siblingInto_ok hroom
          (hg (lo + splitSize n) (n - splitSize n) (by omega) (by omega)) hcap
        rw [spanDown, if_neg hspan, if_neg hmany]
        dsimp only
        rw [hsplit, if_pos hleft, hsib, hwalk outCap hcap']
        rfl
      next hleft =>
        split at h
        next hright =>
          obtain ⟨sib, -, h⟩ := bind_ok_iff.1 h
          obtain ⟨l', hrest, h⟩ := bind_ok_iff.1 h
          obtain rfl := Except.ok.inj h
          obtain ⟨siblings, hsame, hle, hwalk⟩ := ih (by omega) (by omega) (by omega) hrest
          refine ⟨g lo (splitSize n) :: siblings, by simp [hsame], Nat.succ_le_succ hle,
            fun outCap hcap => ?_⟩
          obtain ⟨hsib, hcap'⟩ := siblingInto_ok hroom
            (hg lo (splitSize n) hpos (by omega)) hcap
          rw [spanDown, if_neg hspan, if_neg hmany]
          dsimp only
          rw [hsplit, if_neg hleft, if_pos hright, hsib, hwalk outCap hcap']
          rfl
        next => cases h

variable {leafCount first count : ℕ}

/-- A canonical span is walked to. -/
theorem spanDown_of_canonical (h : spanIsCanonical leafCount first count = true) :
    spanInside leafCount first count = true ∧
      ¬(count = 0 ∨ leafCount - count < first) ∧
      ∃ l, spanDown (fun _ _ _ => .ok 0) first count maxDepth 0 leafCount = .ok l := by
  rw [spanIsCanonical, Bool.and_eq_true, spanWalk] at h
  obtain ⟨hinside, hwalk⟩ := h
  by_cases hspan : count = 0 ∨ leafCount - count < first
  · rw [if_pos hspan] at hwalk
    cases hwalk
  · rw [if_neg hspan] at hwalk
    cases hdown : spanDown (fun _ _ _ => .ok 0) first count maxDepth 0 leafCount with
    | error e =>
      rw [hdown] at hwalk
      cases hwalk
    | ok l => exact ⟨hinside, hspan, l, rfl⟩

/-- **A canonical span has a proof.** -/
theorem spanProofFrom_canonical {g : ℕ → ℕ → Bytes32} {subtree : Subtree}
    (hg : ∀ lo n, 0 < n → lo + n ≤ leafCount → subtree lo n = .ok (g lo n))
    (h : spanIsCanonical leafCount first count = true) :
    ∃ siblings, siblings.length ≤ maxDepth ∧ ∀ outCap, siblings.length * hashLen ≤ outCap →
      spanProofFrom subtree leafCount first count outCap = .ok siblings := by
  obtain ⟨hinside, hspan, l, hdown⟩ := spanDown_of_canonical h
  have hmax : leafCount ≤ maxLeaves := by
    rw [spanInside, Bool.and_eq_true, Bool.not_eq_true', Bool.or_eq_false_iff,
      decide_eq_false_iff_not, not_lt] at hinside
    exact hinside.1.2
  obtain ⟨siblings, -, hle, hall⟩ := spanDown_ok (Nat.le_refl _) (Nat.zero_add _).le hmax hg hdown
  refine ⟨siblings, hle, fun outCap hcap => ?_⟩
  rw [spanProofFrom, if_neg (by simp [hinside]), spanWalk, if_neg hspan]
  exact hall outCap (by rwa [Nat.sub_self, Nat.zero_add])

/-! ## Subtrees are canonical -/

/-- **A walk to a subtree** gets there. -/
theorem spanDown_part {first count room lo n : ℕ} (h : Part lo n first count) (hn : 0 < n)
    (hroom : n ≤ 2 ^ room) (hle : room ≤ maxDepth) :
    ∃ l, spanDown (fun _ _ _ => .ok 0) first count room lo n = .ok l := by
  induction room generalizing lo n with
  | zero =>
    rcases h.of_halves with ⟨rfl, rfl⟩ | ⟨hmany, -⟩
    · exact ⟨[], by rw [spanDown, if_pos ⟨rfl, rfl⟩]⟩
    · rw [Nat.pow_zero] at hroom
      omega
  | succ room ih =>
    rw [spanDown]
    split
    next => exact ⟨[], rfl⟩
    next hspan =>
      rcases h.of_halves with ⟨rfl, rfl⟩ | ⟨hmany, h⟩
      · exact absurd ⟨rfl, rfl⟩ hspan
      · have hmax : n ≤ maxLeaves := hroom.trans (Nat.pow_le_pow_right Nat.two_pos hle)
        obtain ⟨hpos, hlt, hhalf, htwice⟩ := splitSize_bounds hmany hroom
        rw [if_neg (not_le.2 hmany), splitAt_eq hmany hmax]
        dsimp only
        rcases h with h | h
        · obtain ⟨l, hl⟩ := ih h hpos hhalf (by omega)
          rw [if_pos h.bounds.2, hl]
          exact ⟨0 :: l, rfl⟩
        · obtain ⟨l, hl⟩ := ih h (by omega) (by omega) (by omega)
          have hcount := h.pos (by omega)
          have hbounds := h.bounds
          rw [if_neg (by omega), if_pos hbounds.1, hl]
          exact ⟨0 :: l, rfl⟩

theorem spanIsCanonical_of_part (h : Part 0 leafCount first count) (hn : 0 < leafCount)
    (hmax : leafCount ≤ maxLeaves) : spanIsCanonical leafCount first count = true := by
  have hcount := h.pos hn
  have hbounds := h.bounds
  obtain ⟨l, hl⟩ := spanDown_part h hn hmax (Nat.le_refl _)
  rw [spanIsCanonical, spanWalk, if_neg (by omega), hl, Bool.and_true]
  simp only [spanInside, Bool.and_eq_true, Bool.not_eq_true', Bool.or_eq_false_iff, beq_eq_false_iff_ne,
    decide_eq_false_iff_not, not_lt]
  omega

/-- **A walk that gets there** has come to a subtree. -/
theorem part_of_spanDown {sibling : ℕ → Subtree} {first count room lo n : ℕ} {l : List Bytes32}
    (hn : n ≤ maxLeaves) (h : spanDown sibling first count room lo n = .ok l) :
    Part lo n first count := by
  induction room generalizing lo n l with
  | zero =>
    rw [spanDown] at h
    split at h
    next hspan =>
      obtain ⟨rfl, rfl⟩ := hspan
      exact .whole
    next => cases h
  | succ room ih =>
    rw [spanDown] at h
    split at h
    next hspan =>
      obtain ⟨rfl, rfl⟩ := hspan
      exact .whole
    next =>
      obtain ⟨hmany, h⟩ := past_check h nofun
      have hmany' : 1 < n := not_le.1 hmany
      have hlt := splitSize_lt hmany'
      dsimp only at h
      rw [splitAt_eq hmany' hn] at h
      split at h
      next =>
        obtain ⟨sib, -, h⟩ := bind_ok_iff.1 h
        obtain ⟨rest, hrest, -⟩ := bind_ok_iff.1 h
        exact (Part.whole.left hmany').trans (ih (by omega) hrest)
      next =>
        split at h
        next =>
          obtain ⟨sib, -, h⟩ := bind_ok_iff.1 h
          obtain ⟨rest, hrest, -⟩ := bind_ok_iff.1 h
          exact (Part.whole.right hmany').trans (ih (by omega) hrest)
        next => cases h

/-- **Canonical spans are the subtrees.** -/
theorem spanIsCanonical_iff (hn : 0 < leafCount) (hmax : leafCount ≤ maxLeaves) :
    spanIsCanonical leafCount first count = true ↔ Part 0 leafCount first count := by
  refine ⟨fun h => ?_, fun h => spanIsCanonical_of_part h hn hmax⟩
  obtain ⟨-, -, l, hdown⟩ := spanDown_of_canonical h
  exact part_of_spanDown hmax hdown

/-! ## What a span's proof proves -/

/-- `FZN_BLOB_SEALED_MAX`: a leaf of 1024 bytes, its commitment and its tag. -/
def sealedMax : ℕ := 1024 + 16 + 16

/-- What a leaf hashes, behind `FZN_BLOB_LEAF_PREFIX`. -/
def leafInput (leaf : Bytes) : Bytes := 0 :: leaf

/-- `fzn_blob_leaf_hash`. -/
def leafHash (ops : HashOps) (leaf : Bytes) : Except BlobErr Bytes32 :=
  if leaf.length = 0 ∨ sealedMax < leaf.length then .error .shape else hashed ops (leafInput leaf)

/-- `fzn_blob_span_root`. -/
def spanRoot (ops : HashOps) (leafHashes : List Bytes32) : Except BlobErr Bytes32 :=
  if leafHashes.length = 0 ∨ maxLeaves < leafHashes.length then .error .malformed
  else subtreeRoot ops leafHashes 0 leafHashes.length

/-- The path `span_walk` records, with `room` levels left: whether it turned right. -/
@[grind =] def spanPath (first count : ℕ) : ℕ → ℕ → ℕ → Except BlobErr (List Bool)
  | 0, lo, n => if lo = first ∧ n = count then .ok [] else .error .shape
  | room + 1, lo, n =>
    if lo = first ∧ n = count then .ok []
    else if n ≤ 1 then .error .shape
    else
      let k := splitAt n
      if first + count ≤ lo + k then do
        let rest ← spanPath first count room lo k
        .ok (false :: rest)
      else if lo + k ≤ first then do
        let rest ← spanPath first count room (lo + k) (n - k)
        .ok (true :: rest)
      else .error .shape

/-- `fzn_blob_span_proof_verify`. -/
def spanProofVerify (ops : HashOps) (spanRoot : Bytes32) (first count leafCount : ℕ)
    (siblings : List Bytes32) (root : Bytes32) : Except BlobErr Unit :=
  if spanInside leafCount first count = false then .error .malformed
  else if maxDepth < siblings.length then .error .shape
  else do
    let path ← spanPath first count maxDepth 0 leafCount
    if siblings.length ≠ path.length then .error .shape
    else do
      let acc ← climb ops spanRoot (path.zip siblings)
      let acc ← finaliseRoot ops acc leafCount
      if acc = root then .ok () else .error .proof

section Pins

variable {H : Bytes → Bytes32} {leafHashes hashes : List Bytes32} {T : Set Bytes}

/-- What such a check hashes. -/
def spanInputs (H : Bytes → Bytes32) (spanRoot : Bytes32) (first count leafCount : ℕ)
    (siblings : List Bytes32) : Set Bytes :=
  {x | ∃ path, spanPath first count maxDepth 0 leafCount = .ok path ∧
    (x ∈ climbInputs H spanRoot (path.zip siblings) ∨
      x = rootInput (climbed H spanRoot (path.zip siblings)) leafCount)}

theorem descends_of_spanPath {first count room lo n : ℕ} {path : List Bool}
    (hroom : room ≤ maxDepth) (hn : n ≤ maxLeaves) (hpath : spanPath first count room lo n = .ok path) :
    Descends path lo n first count := by
  induction room generalizing lo n path with
  | zero =>
    rw [spanPath] at hpath
    split at hpath
    next hspan =>
      obtain rfl := Except.ok.inj hpath
      obtain ⟨rfl, rfl⟩ := hspan
      exact .here
    next => cases hpath
  | succ room ih =>
    rw [spanPath] at hpath
    split at hpath
    next hspan =>
      obtain rfl := Except.ok.inj hpath
      obtain ⟨rfl, rfl⟩ := hspan
      exact .here
    next =>
      obtain ⟨hmany, hpath⟩ := past_check hpath nofun
      have hmany' : 1 < n := not_le.1 hmany
      have hlt := splitSize_lt hmany'
      dsimp only at hpath
      rw [splitAt_eq hmany' hn] at hpath
      split at hpath
      next =>
        obtain ⟨rest, hrest, hpath⟩ := bind_ok_iff.1 hpath
        obtain rfl := Except.ok.inj hpath
        exact .left hmany' (ih (by omega) (by omega) hrest)
      next =>
        split at hpath
        next =>
          obtain ⟨rest, hrest, hpath⟩ := bind_ok_iff.1 hpath
          obtain rfl := Except.ok.inj hpath
          exact .right hmany' (ih (by omega) (by omega) hrest)
        next => cases hpath

theorem Descends.part {path : List Bool} {lo n lo' n' : ℕ} (h : Descends path lo n lo' n') :
    Part lo n lo' n' := by
  induction h with
  | here => exact .whole
  | left many _ ih => exact (Part.whole.left many).trans ih
  | right many _ ih => exact (Part.whole.right many).trans ih

/-- **Two trees of one apex** have the same leaves. -/
theorem apex_pins {lo lo' n : ℕ} (hn : 0 < n) (hinj : (answering H).InjOn T)
    (hleft : ∀ k m, Part lo n k m → 1 < m → partInput H hashes k m ∈ T)
    (hright : ∀ k m, Part lo' n k m → 1 < m → partInput H leafHashes k m ∈ T)
    (h : apex (node H) (leafAt hashes) lo n = apex (node H) (leafAt leafHashes) lo' n) :
    ∀ i < n, leafAt hashes (lo + i) = leafAt leafHashes (lo' + i) := by
  induction n using Nat.strongRecOn generalizing lo lo' with
  | ind n ih =>
    intro i hi
    by_cases hmany : 1 < n
    · have hlt := splitSize_lt hmany
      have hpos := splitSize_pos n
      rw [apex_of_lt hmany, apex_of_lt hmany] at h
      obtain ⟨hl, hr⟩ := nodeInput_inj (hinj _ (hleft lo n .whole hmany) _
        (hright lo' n .whole hmany) _ rfl (congrArg some h.symm))
      by_cases hside : i < splitSize n
      · exact ih _ hlt hpos (fun k m hpart => hleft k m ((Part.whole.left hmany).trans hpart))
          (fun k m hpart => hright k m ((Part.whole.left hmany).trans hpart)) hl i hside
      · have hrest := ih (n - splitSize n) (by omega) (by omega)
          (fun k m hpart => hleft k m ((Part.whole.right hmany).trans hpart))
          (fun k m hpart => hright k m ((Part.whole.right hmany).trans hpart)) hr
          (i - splitSize n) (by omega)
        rwa [Nat.add_assoc, Nat.add_assoc, Nat.add_sub_cancel' (not_lt.1 hside)] at hrest
    · obtain rfl : n = 1 := by omega
      obtain rfl : i = 0 := by omega
      rw [apex_one, apex_one] at h
      exact h

/-- What a check that accepts has found. -/
theorem spanProofVerify_ok {span root : Bytes32} {first count leafCount : ℕ}
    {siblings : List Bytes32}
    (h : spanProofVerify (answering H) span first count leafCount siblings root = .ok ()) :
    leafCount ≤ maxLeaves ∧ ∃ path, spanPath first count maxDepth 0 leafCount = .ok path ∧
      siblings.length = path.length ∧
        H (rootInput (climbed H span (path.zip siblings)) leafCount) = root := by
  rw [spanProofVerify] at h
  obtain ⟨hinside, h⟩ := past_check h nofun
  rw [Bool.not_eq_false, spanInside, Bool.and_eq_true, Bool.not_eq_true', Bool.or_eq_false_iff,
    decide_eq_false_iff_not, not_lt] at hinside
  refine ⟨hinside.1.2, ?_⟩
  obtain ⟨-, h⟩ := past_check h nofun
  exact checked_ok h

/-- **A span accepted under a root has the leaves that stand there**, where no two of the
inputs hashed share a hash. -/
theorem spanProofVerify_pins {span : Bytes32} {first count : ℕ} {siblings : List Bytes32}
    (hinj : (answering H).InjOn T) (htree : treeInputs H leafHashes ⊆ T)
    (hspan : spanInputs H span first count leafHashes.length siblings ⊆ T)
    (h : spanProofVerify (answering H) span first count leafHashes.length siblings
      (rootOf H leafHashes) = .ok ()) :
    Part 0 leafHashes.length first count ∧
      span = apex (node H) (leafAt leafHashes) first count := by
  obtain ⟨hcount, path, hpath, hlen, hroot⟩ := spanProofVerify_ok h
  have hroots := hinj _ (hspan ⟨path, hpath, .inr rfl⟩) _ (htree (.inl rfl)) _ rfl
    (congrArg some hroot.symm)
  have hbound : maxLeaves < 2 ^ 64 := by decide
  obtain ⟨-, happex⟩ := rootInput_inj (by omega) (by omega) hroots
  have hdescends := descends_of_spanPath (Nat.le_refl _) hcount hpath
  exact ⟨hdescends.part, hdescends.pins hinj hlen (fun x hx => hspan ⟨path, hpath, .inl hx⟩)
    (fun lo n hpart hmany => htree (.inr ⟨lo, n, hpart, hmany, rfl⟩)) happex⟩

end Pins

/-! ## A proof built is accepted -/

section Built

variable {H : Bytes → Bytes32} {leafHashes : List Bytes32}

/-- **A subtree's siblings on its path** climb from its apex to the top. -/
theorem spanDown_climbs {first count room lo n : ℕ} (h : Part lo n first count) (hn : 0 < n)
    (hpow : n ≤ 2 ^ room) (hroom : room ≤ maxDepth) (hlen : lo + n ≤ leafHashes.length)
    (hmax : leafHashes.length ≤ maxLeaves) :
    ∃ siblings path, siblings.length ≤ room ∧ siblings.length = path.length ∧
      (∀ outCap, (maxDepth - room + siblings.length) * hashLen ≤ outCap →
        spanDown (siblingInto (subtreeRoot (answering H) leafHashes) outCap) first count room lo n =
          .ok siblings) ∧
      spanPath first count room lo n = .ok path ∧
      climbed H (apex (node H) (leafAt leafHashes) first count) (path.zip siblings) =
        apex (node H) (leafAt leafHashes) lo n := by
  induction room generalizing lo n with
  | zero =>
    rw [Nat.pow_zero] at hpow
    rcases h.of_halves with ⟨rfl, rfl⟩ | ⟨hmany, -⟩
    · refine ⟨[], [], Nat.le_refl _, rfl, fun _ _ => ?_, ?_, rfl⟩
      · rw [spanDown, if_pos ⟨rfl, rfl⟩]
      · rw [spanPath, if_pos ⟨rfl, rfl⟩]
    · omega
  | succ room ih =>
    by_cases hspan : lo = first ∧ n = count
    · refine ⟨[], [], Nat.zero_le _, rfl, fun _ _ => ?_, ?_, ?_⟩
      · rw [spanDown, if_pos hspan]
      · rw [spanPath, if_pos hspan]
      · rw [← hspan.1, ← hspan.2]
        rfl
    · obtain ⟨hmany, hhalves⟩ : 1 < n ∧ _ := h.of_halves.resolve_left fun ⟨hlo, hcount⟩ =>
        hspan ⟨hlo.symm, hcount.symm⟩
      have hsplit := splitAt_eq hmany (by omega)
      obtain ⟨hpos, hlt, hhalf, htwice⟩ := splitSize_bounds hmany hpow
      rcases hhalves with h | h
      · obtain ⟨siblings, path, hle, heq, hbuild, hpath, hclimb⟩ :=
          ih h hpos hhalf (by omega) (by omega)
        refine ⟨apex (node H) (leafAt leafHashes) (lo + splitSize n) (n - splitSize n) :: siblings,
          false :: path, by rw [List.length_cons]; omega, by simp [heq],
          fun outCap hcap => ?_, ?_, ?_⟩
        · obtain ⟨hhere, hrest⟩ := siblingInto_ok hroom (@subtreeRoot_eq H leafHashes
            (lo + splitSize n) (n - splitSize n) (by omega) (by omega) (by omega)) hcap
          rw [spanDown, if_neg hspan, if_neg (not_le.2 hmany)]
          dsimp only
          rw [hsplit, if_pos h.bounds.2, hhere, hbuild outCap hrest]
          rfl
        · rw [spanPath, if_neg hspan, if_neg (not_le.2 hmany)]
          dsimp only
          rw [hsplit, if_pos h.bounds.2, hpath]
          rfl
        · rw [List.zip_cons_cons, climbed, if_neg Bool.false_ne_true, hclimb, apex_of_lt hmany]
      · obtain ⟨siblings, path, hle, heq, hbuild, hpath, hclimb⟩ :=
          ih h (by omega) (by omega) (by omega) (by omega)
        have hcount := h.pos (by omega)
        have hbounds := h.bounds
        refine ⟨apex (node H) (leafAt leafHashes) lo (splitSize n) :: siblings, true :: path,
          by rw [List.length_cons]; omega, by simp [heq], fun outCap hcap => ?_, ?_, ?_⟩
        · obtain ⟨hhere, hrest⟩ := siblingInto_ok hroom
            (@subtreeRoot_eq H leafHashes lo _ hpos (by omega) (by omega)) hcap
          rw [spanDown, if_neg hspan, if_neg (not_le.2 hmany)]
          dsimp only
          rw [hsplit, if_neg (by omega), if_pos hbounds.1, hhere, hbuild outCap hrest]
          rfl
        · rw [spanPath, if_neg hspan, if_neg (not_le.2 hmany)]
          dsimp only
          rw [hsplit, if_neg (by omega), if_pos hbounds.1, hpath]
          rfl
        · rw [List.zip_cons_cons, climbed, if_pos rfl, hclimb, apex_of_lt hmany]

/-- **The root of a span's own leaf hashes** is the apex over them. -/
theorem spanRoot_slice {first count : ℕ} (hcount : 0 < count)
    (hlen : first + count ≤ leafHashes.length) (hmax : count < maxLeaves) :
    spanRoot (answering H) ((leafHashes.drop first).take count) =
      .ok (apex (node H) (leafAt leafHashes) first count) := by
  have htaken : ((leafHashes.drop first).take count).length = count := by
    rw [List.length_take, List.length_drop]
    omega
  rw [spanRoot, htaken, if_neg (by omega), ← subtreeRoot_eq hcount hlen hmax, subtreeRoot,
    subtreeRoot, List.drop_zero, List.take_take, Nat.min_self]

/-- **A span's proof is accepted** with its root under the blob's. -/
theorem spanProofBuild_accepted {first count : ℕ} (h : Part 0 leafHashes.length first count)
    (hsome : 0 < leafHashes.length) (hmax : leafHashes.length ≤ maxLeaves) :
    ∃ siblings, siblings.length ≤ maxDepth ∧
      (∀ outCap, siblings.length * hashLen ≤ outCap →
        spanProofBuild (answering H) leafHashes first count outCap = .ok siblings) ∧
      spanProofVerify (answering H) (apex (node H) (leafAt leafHashes) first count) first count
        leafHashes.length siblings (rootOf H leafHashes) = .ok () := by
  obtain ⟨siblings, path, hle, heq, hbuild, hpath, hclimb⟩ := @spanDown_climbs H leafHashes _ _
    maxDepth 0 _ h hsome hmax (Nat.le_refl _) (Nat.zero_add _).le hmax
  have hcount := h.pos hsome
  have hbounds := h.bounds
  have hinside : ¬ spanInside leafHashes.length first count = false := by
    have hcanonical := spanIsCanonical_of_part h hsome hmax
    rw [spanIsCanonical, Bool.and_eq_true] at hcanonical
    rw [hcanonical.1]
    exact Bool.true_eq_false_eq_False
  refine ⟨siblings, hle, fun outCap hcap => ?_, ?_⟩
  · rw [spanProofBuild, if_neg hinside, spanWalk, if_neg (by omega)]
    exact hbuild outCap (by rwa [Nat.sub_self, Nat.zero_add])
  · rw [spanProofVerify, if_neg hinside, if_neg (not_lt.2 hle), hpath]
    show (if siblings.length ≠ path.length then _ else _) = _
    rw [if_neg (not_not.2 heq), climb_answering, hclimb]
    exact if_pos rfl

/-- **The largest tree has no root for itself**: its last leaf is refused. -/
theorem spanRoot_largest (hfull : leafHashes.length = maxLeaves) :
    spanRoot (answering H) leafHashes = .error .full := by
  have hpos : 0 < maxLeaves := Nat.two_pow_pos _
  rw [spanRoot, if_neg (by omega), subtreeRoot, if_neg (by omega), List.drop_zero, List.take_length,
    pushes_full hfull]
  rfl

/-- **A span is accepted under the count of the blob alone.** -/
theorem spanProofVerify_count {span : Bytes32} {first count leafCount : ℕ}
    {siblings : List Bytes32} (hmax : leafHashes.length ≤ maxLeaves)
    (hinj : (answering H).InjOn
      (treeInputs H leafHashes ∪ spanInputs H span first count leafCount siblings))
    (h : spanProofVerify (answering H) span first count leafCount siblings
      (rootOf H leafHashes) = .ok ()) : leafCount = leafHashes.length := by
  obtain ⟨hcount, path, hpath, -, hroot⟩ := spanProofVerify_ok h
  have hroots := hinj _ (.inr ⟨path, hpath, .inr rfl⟩) _ (.inl (.inl rfl)) _ rfl
    (congrArg some hroot.symm)
  have hbound : maxLeaves < 2 ^ 64 := by decide
  exact (rootInput_inj (by omega) (by omega) hroots).1

end Built

end Blob
end Fuzznet
