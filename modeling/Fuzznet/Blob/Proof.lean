/-
# Proofs that a leaf is in a blob

`fzn_blob_proof_build` and `fzn_blob_proof_verify` of `blob/blob.c`: the builder goes down
to a leaf and takes the sibling at every split, the verifier goes down by the count it is
told and climbs back.

A proof built is accepted, and where no two of the inputs hashed share a hash what is
accepted is the leaf that stands there and the count the root was made for
(`one_tree_iff`).
-/

import Fuzznet.Blob.Tree

namespace Fuzznet
namespace Blob

open Wire Lib
open Session (bytes32 length_bytes32 bytes32_append_inj bytes32_injective)

/-- The loop of `split_at`, as often as 64 bits double. -/
def splitFrom : ℕ → ℕ → ℕ → ℕ
  | 0, k, _ => k
  | fuel + 1, k, n => if k * 2 < n then splitFrom fuel (k * 2) n else k

/-- `split_at`. -/
def splitAt (n : ℕ) : ℕ := splitFrom 64 1 n

/-- `subtree_root`, over `leafHashes[lo .. lo + n)`. -/
def subtreeRoot (ops : HashOps) (leafHashes : List Bytes32) (lo n : ℕ) : Except BlobErr Bytes32 :=
  if n = 0 then .error .malformed
  else do
    let t ← pushes ops Tree.init ((leafHashes.drop lo).take n)
    treeApex ops t

/-- The loop of `fzn_blob_proof_build`: the siblings from the subtree over `n` leaves from `lo`
on down to a leaf, with `room` levels left. -/
def proofDown (ops : HashOps) (leafHashes : List Bytes32) (index outCap : ℕ) :
    ℕ → ℕ → ℕ → Except BlobErr (List Bytes32)
  | 0, _, n => if n ≤ 1 then .ok [] else .error .shape
  | room + 1, lo, n =>
    if n ≤ 1 then .ok []
    else if outCap < (maxDepth - room) * hashLen then .error .malformed
    else
      let k := splitAt n
      if index - lo < k then do
        let sibling ← subtreeRoot ops leafHashes (lo + k) (n - k)
        let rest ← proofDown ops leafHashes index outCap room lo k
        .ok (sibling :: rest)
      else do
        let sibling ← subtreeRoot ops leafHashes lo k
        let rest ← proofDown ops leafHashes index outCap room (lo + k) (n - k)
        .ok (sibling :: rest)

/-- `fzn_blob_proof_build`: the siblings, the topmost first. -/
def proofBuild (ops : HashOps) (leafHashes : List Bytes32) (index outCap : ℕ) :
    Except BlobErr (List Bytes32) :=
  if leafHashes.length = 0 ∨ maxLeaves < leafHashes.length ∨ leafHashes.length ≤ index then
    .error .malformed
  else proofDown ops leafHashes index outCap maxDepth 0 leafHashes.length

/-- The descent of `fzn_blob_proof_verify`: for each level, the topmost first, whether the leaf
is on the right. -/
def pathDown (index : ℕ) : ℕ → ℕ → ℕ → Except BlobErr (List Bool)
  | 0, _, n => if n ≤ 1 then .ok [] else .error .shape
  | room + 1, lo, n =>
    if n ≤ 1 then .ok []
    else
      let k := splitAt n
      if index - lo < k then do
        let rest ← pathDown index room lo k
        .ok (false :: rest)
      else do
        let rest ← pathDown index room (lo + k) (n - k)
        .ok (true :: rest)

/-- The climb of `fzn_blob_proof_verify`, from the lowest level up. -/
def climb (ops : HashOps) (leafHash : Bytes32) : List (Bool × Bytes32) → Except BlobErr Bytes32
  | [] => .ok leafHash
  | (right, sib) :: rest => do
    let acc ← climb ops leafHash rest
    if right then nodeHash ops sib acc else nodeHash ops acc sib

/-- `fzn_blob_proof_verify`. -/
def proofVerify (ops : HashOps) (leafHash : Bytes32) (index leafCount : ℕ)
    (siblings : List Bytes32) (root : Bytes32) : Except BlobErr Unit :=
  if leafCount = 0 ∨ maxLeaves < leafCount ∨ leafCount ≤ index then .error .malformed
  else if maxDepth < siblings.length then .error .shape
  else do
    let path ← pathDown index maxDepth 0 leafCount
    if siblings.length ≠ path.length then .error .proof
    else do
      let acc ← climb ops leafHash (path.zip siblings)
      let acc ← finaliseRoot ops acc leafCount
      if acc = root then .ok () else .error .proof

/-! ## The split -/

theorem splitFrom_eq {fuel j n : ℕ} (hlt : 2 ^ j < n) (hle : n ≤ 2 ^ (j + fuel + 1)) :
    splitFrom fuel (2 ^ j) n = splitSize n := by
  have hstop : n ≤ 2 ^ j * 2 → 2 ^ j = splitSize n := by
    intro hn
    obtain ⟨r, rfl⟩ := Nat.exists_eq_add_of_lt hlt
    rw [Nat.add_assoc, splitSize_add (by omega) (by omega)]
  induction fuel generalizing j with
  | zero => exact hstop (by rwa [Nat.add_zero, Nat.pow_succ] at hle)
  | succ fuel ih =>
    rw [splitFrom]
    split
    next hmore =>
      rw [← Nat.pow_succ]
      rw [← Nat.pow_succ] at hmore
      refine ih hmore (by rwa [show j.succ + fuel + 1 = j + (fuel + 1) + 1 by omega]) ?_
      intro hn
      obtain ⟨r, rfl⟩ := Nat.exists_eq_add_of_lt hmore
      rw [Nat.add_assoc, splitSize_add (by omega) (by omega)]
    next hmore => exact hstop (by omega)

/-- **The loop finds the split.** -/
theorem splitAt_eq {n : ℕ} (hmany : 1 < n) (hle : n ≤ maxLeaves) : splitAt n = splitSize n := by
  refine splitFrom_eq (j := 0) hmany (hle.trans ?_)
  exact Nat.pow_le_pow_right Nat.two_pos (by decide)

/-- A half of what has at most `2 ^ (room + 1)` leaves has at most `2 ^ room`. -/
theorem splitSize_le {n room : ℕ} (hmany : 1 < n) (hle : n ≤ 2 ^ (room + 1)) :
    splitSize n ≤ 2 ^ room := by
  refine Nat.pow_le_pow_right Nat.two_pos ?_
  have hlog : Nat.log 2 (n - 1) < room + 1 := Nat.log_lt_of_lt_pow (by omega) (by omega)
  omega

/-- The half on the left of a tree, and that the one on the right is no larger. -/
theorem splitSize_bounds {n room : ℕ} (hmany : 1 < n) (hle : n ≤ 2 ^ (room + 1)) :
    0 < splitSize n ∧ splitSize n < n ∧ splitSize n ≤ 2 ^ room ∧ n ≤ 2 * splitSize n :=
  ⟨splitSize_pos n, splitSize_lt hmany, splitSize_le hmany hle, le_two_mul_splitSize n⟩

variable {H : Bytes → Bytes32} {leafHashes : List Bytes32}

/-- The leaves, by their index. -/
def leafAt (leafHashes : List Bytes32) (i : ℕ) : Bytes32 := leafHashes.getD i 0

/-- **A subtree's root from the array** is its apex. -/
theorem subtreeRoot_eq {lo n : ℕ} (hn : 0 < n) (hlen : lo + n ≤ leafHashes.length)
    (hlt : n < maxLeaves) :
    subtreeRoot (answering H) leafHashes lo n = .ok (apex (node H) (leafAt leafHashes) lo n) := by
  have htaken : ((leafHashes.drop lo).take n).length = n := by
    rw [List.length_take, List.length_drop]
    omega
  obtain ⟨t, hpushes, ht, hleaves⟩ :=
    (Pushed.init (H := H) (f := fun i => leafAt leafHashes (lo + i))).pushes
      (l := (leafHashes.drop lo).take n)
      (fun i hi => by
        rw [htaken] at hi
        rw [Tree.init, Nat.zero_add, List.getElem?_take_of_lt hi, List.getElem?_drop]
        exact getElem?_getD (by omega))
      (by rwa [Tree.init, Nat.zero_add, htaken])
  rw [Tree.init, Nat.zero_add, htaken] at hleaves
  rw [subtreeRoot, if_neg (by omega), hpushes]
  show treeApex _ t = _
  rw [ht.treeApex (by omega), hleaves, apex_shift lo 0 n hn, Nat.add_zero]

/-! ## A proof built is accepted -/

/-- The climb under a hash that answers. -/
def climbed (H : Bytes → Bytes32) (leafHash : Bytes32) : List (Bool × Bytes32) → Bytes32
  | [] => leafHash
  | (right, sib) :: rest =>
    if right then node H sib (climbed H leafHash rest) else node H (climbed H leafHash rest) sib

theorem climb_answering (leafHash : Bytes32) (steps : List (Bool × Bytes32)) :
    climb (answering H) leafHash steps = .ok (climbed H leafHash steps) := by
  induction steps with
  | nil => rfl
  | cons step rest ih =>
    obtain ⟨right, sib⟩ := step
    rw [climb, ih, climbed]
    cases right with
    | false => rfl
    | true => rfl

/-- **The builder's siblings on the verifier's path** climb to the apex. -/
theorem proofDown_spec {index room lo n : ℕ} (hroom : room ≤ maxDepth) (hlo : lo ≤ index)
    (hin : index < lo + n) (hlen : lo + n ≤ leafHashes.length) (hn : n ≤ 2 ^ room) :
    ∃ siblings path, siblings.length ≤ room ∧ siblings.length = path.length ∧
      (∀ outCap, (maxDepth - room + siblings.length) * hashLen ≤ outCap →
        proofDown (answering H) leafHashes index outCap room lo n = .ok siblings) ∧
      pathDown index room lo n = .ok path ∧
      climbed H (leafAt leafHashes index) (path.zip siblings) =
        apex (node H) (leafAt leafHashes) lo n := by
  induction room generalizing lo n with
  | zero =>
    rw [Nat.pow_zero] at hn
    obtain rfl : n = 1 := by omega
    obtain rfl : lo = index := by omega
    refine ⟨[], [], Nat.le_refl _, rfl, fun _ _ => ?_, ?_, ?_⟩
    · rw [proofDown, if_pos (Nat.le_refl _)]
    · rw [pathDown, if_pos (Nat.le_refl _)]
    · rw [apex_one]
      rfl
  | succ room ih =>
    by_cases hmany : 1 < n
    · have hmax : n ≤ maxLeaves := hn.trans (Nat.pow_le_pow_right Nat.two_pos hroom)
      have hsplit := splitAt_eq hmany hmax
      obtain ⟨hpos, hlt, hhalf, htwice⟩ := splitSize_bounds hmany hn
      have hbelow : ∀ outCap (l : List Bytes32),
          (maxDepth - (room + 1) + (l.length + 1)) * hashLen ≤ outCap →
            ¬outCap < (maxDepth - room) * hashLen ∧
              (maxDepth - room + l.length) * hashLen ≤ outCap := by
        intro outCap l hcap
        rw [show maxDepth - (room + 1) + (l.length + 1) = maxDepth - room + l.length by omega]
          at hcap
        exact ⟨not_lt.2 ((Nat.mul_le_mul_right _ (Nat.le_add_right _ _)).trans hcap), hcap⟩
      by_cases hleft : index - lo < splitSize n
      · obtain ⟨siblings, path, hle, heq, hbuild, hpath, hclimb⟩ :=
          @ih lo (splitSize n) (by omega) hlo (by omega) (by omega) hhalf
        refine ⟨apex (node H) (leafAt leafHashes) (lo + splitSize n) (n - splitSize n) :: siblings,
          false :: path, by rw [List.length_cons]; omega, by simp [heq],
          fun outCap hcap => ?_, ?_, ?_⟩
        · obtain ⟨hnot, hrest⟩ := hbelow outCap siblings hcap
          rw [proofDown, if_neg (by omega), if_neg hnot]
          dsimp only
          rw [hsplit, if_pos hleft, subtreeRoot_eq (by omega) (by omega) (by omega),
            hbuild outCap hrest]
          rfl
        · rw [pathDown, if_neg (by omega)]
          dsimp only
          rw [hsplit, if_pos hleft, hpath]
          rfl
        · rw [List.zip_cons_cons, climbed, if_neg Bool.false_ne_true, hclimb, apex_of_lt hmany]
      · obtain ⟨siblings, path, hle, heq, hbuild, hpath, hclimb⟩ :=
          @ih (lo + splitSize n) (n - splitSize n) (by omega) (by omega) (by omega)
            (by omega) (by omega)
        refine ⟨apex (node H) (leafAt leafHashes) lo (splitSize n) :: siblings,
          true :: path, by rw [List.length_cons]; omega, by simp [heq],
          fun outCap hcap => ?_, ?_, ?_⟩
        · obtain ⟨hnot, hrest⟩ := hbelow outCap siblings hcap
          rw [proofDown, if_neg (by omega), if_neg hnot]
          dsimp only
          rw [hsplit, if_neg hleft, subtreeRoot_eq hpos (by omega) (by omega),
            hbuild outCap hrest]
          rfl
        · rw [pathDown, if_neg (by omega)]
          dsimp only
          rw [hsplit, if_neg hleft, hpath]
          rfl
        · rw [List.zip_cons_cons, climbed, if_pos rfl, hclimb, apex_of_lt hmany]
    · obtain rfl : n = 1 := by omega
      obtain rfl : lo = index := by omega
      refine ⟨[], [], Nat.zero_le _, rfl, fun _ _ => ?_, ?_, ?_⟩
      · rw [proofDown, if_pos (Nat.le_refl _)]
      · rw [pathDown, if_pos (Nat.le_refl _)]
      · rw [apex_one]
        rfl

/-- **A proof built is accepted** under the root and the count. -/
theorem proofBuild_accepted {index : ℕ} (hin : index < leafHashes.length)
    (hmax : leafHashes.length ≤ maxLeaves) :
    ∃ siblings, siblings.length ≤ maxDepth ∧
      (∀ outCap, siblings.length * hashLen ≤ outCap →
        proofBuild (answering H) leafHashes index outCap = .ok siblings) ∧
      proofVerify (answering H) (leafAt leafHashes index) index leafHashes.length siblings
        (rootOf H leafHashes) = .ok () := by
  obtain ⟨siblings, path, hle, heq, hbuild, hpath, hclimb⟩ :=
    @proofDown_spec H leafHashes index maxDepth 0 leafHashes.length (Nat.le_refl maxDepth)
      (Nat.zero_le index) (by omega) (Nat.zero_add _).le hmax
  refine ⟨siblings, hle, fun outCap hcap => ?_, ?_⟩
  · rw [proofBuild, if_neg (by omega)]
    exact hbuild outCap (by rwa [Nat.sub_self, Nat.zero_add])
  · rw [proofVerify, if_neg (by omega), if_neg (by omega), hpath]
    show (if siblings.length ≠ path.length then _ else _) = _
    rw [if_neg (not_not.2 heq), climb_answering, hclimb]
    exact if_pos rfl

/-! ## What is accepted is true -/

theorem nodeInput_inj {a b c d : Bytes32} (h : nodeInput a b = nodeInput c d) : a = c ∧ b = d := by
  obtain ⟨-, h⟩ := List.cons.inj h
  obtain ⟨hac, hbd⟩ := bytes32_append_inj.1 h
  exact ⟨hac, bytes32_injective hbd⟩

theorem rootInput_inj {a b : Bytes32} {n m : ℕ} (hn : n < 2 ^ 64) (hm : m < 2 ^ 64)
    (h : rootInput a n = rootInput b m) : n = m ∧ a = b := by
  rw [rootInput, rootInput, List.append_assoc, List.append_assoc] at h
  obtain ⟨hcount, hapex⟩ := List.append_inj (List.append_cancel_left h) (by simp)
  refine ⟨?_, bytes32_injective hapex⟩
  have hread : ∀ v, v < 2 ^ 64 → getBe (putBe 8 v) 0 8 = v := fun v hv => by
    have := getBe_putBe_of_lt (n := 8) [] hv
    rwa [List.append_nil] at this
  rw [← hread n hn, hcount, hread m hm]

/-- What a climb hashes. -/
def climbInputs (H : Bytes → Bytes32) (leafHash : Bytes32) : List (Bool × Bytes32) → List Bytes
  | [] => []
  | (right, sib) :: rest =>
    (if right then nodeInput sib (climbed H leafHash rest)
      else nodeInput (climbed H leafHash rest) sib) :: climbInputs H leafHash rest

/-- What a tree hashes for the subtree over `n` leaves from `lo` on. -/
def partInput (H : Bytes → Bytes32) (leafHashes : List Bytes32) (lo n : ℕ) : Bytes :=
  nodeInput (apex (node H) (leafAt leafHashes) lo (splitSize n))
    (apex (node H) (leafAt leafHashes) (lo + splitSize n) (n - splitSize n))

/-- What the root over some leaves hashes. -/
def treeInputs (H : Bytes → Bytes32) (leafHashes : List Bytes32) : Set Bytes :=
  {x | x = rootInput (apex (node H) (leafAt leafHashes) 0 leafHashes.length) leafHashes.length ∨
    ∃ lo n, Part 0 leafHashes.length lo n ∧ 1 < n ∧ x = partInput H leafHashes lo n}

/-- What a check hashes. -/
def verifyInputs (H : Bytes → Bytes32) (leafHash : Bytes32) (index leafCount : ℕ)
    (siblings : List Bytes32) : Set Bytes :=
  {x | ∃ path, pathDown index maxDepth 0 leafCount = .ok path ∧
    (x ∈ climbInputs H leafHash (path.zip siblings) ∨
      x = rootInput (climbed H leafHash (path.zip siblings)) leafCount)}

/-- A path down a tree, the topmost turn first: from the subtree over `n` leaves from `lo` on to
the one over `n'` from `lo'` on. -/
inductive Descends : List Bool → ℕ → ℕ → ℕ → ℕ → Prop
  | here {lo n : ℕ} : Descends [] lo n lo n
  | left {path : List Bool} {lo n lo' n' : ℕ} (many : 1 < n)
      (h : Descends path lo (splitSize n) lo' n') : Descends (false :: path) lo n lo' n'
  | right {path : List Bool} {lo n lo' n' : ℕ} (many : 1 < n)
      (h : Descends path (lo + splitSize n) (n - splitSize n) lo' n') :
      Descends (true :: path) lo n lo' n'

theorem descends_of_pathDown {index room lo n : ℕ} {path : List Bool} (hroom : room ≤ maxDepth)
    (hlo : lo ≤ index) (hin : index < lo + n) (hn : n ≤ 2 ^ room)
    (hpath : pathDown index room lo n = .ok path) : Descends path lo n index 1 := by
  induction room generalizing lo n path with
  | zero =>
    rw [Nat.pow_zero] at hn
    obtain rfl : n = 1 := by omega
    obtain rfl : lo = index := by omega
    rw [pathDown, if_pos (Nat.le_refl _)] at hpath
    obtain rfl := Except.ok.inj hpath
    exact .here
  | succ room ih =>
    by_cases hmany : 1 < n
    · have hsplit := splitAt_eq hmany (hn.trans (Nat.pow_le_pow_right Nat.two_pos hroom))
      obtain ⟨-, hlt, hhalf, htwice⟩ := splitSize_bounds hmany hn
      rw [pathDown, if_neg (by omega)] at hpath
      dsimp only at hpath
      rw [hsplit] at hpath
      by_cases hleft : index - lo < splitSize n
      · rw [if_pos hleft] at hpath
        obtain ⟨rest, hrest, hpath⟩ := bind_ok_iff.1 hpath
        obtain rfl := Except.ok.inj hpath
        exact .left hmany (ih (by omega) hlo (by omega) hhalf hrest)
      · rw [if_neg hleft] at hpath
        obtain ⟨rest, hrest, hpath⟩ := bind_ok_iff.1 hpath
        obtain rfl := Except.ok.inj hpath
        exact .right hmany (ih (by omega) (by omega) (by omega) (by omega) hrest)
    · obtain rfl : n = 1 := by omega
      obtain rfl : lo = index := by omega
      rw [pathDown, if_pos (Nat.le_refl _)] at hpath
      obtain rfl := Except.ok.inj hpath
      exact .here

variable {siblings : List Bytes32}

/-- **A climb that reaches the apex** began at the subtree its path comes down to. -/
theorem Descends.pins {x : Bytes32} {T : Set Bytes} {lo n lo' n' : ℕ} {path : List Bool}
    (hpath : Descends path lo n lo' n') (hinj : (answering H).InjOn T)
    (hlen : siblings.length = path.length)
    (hclimb : ∀ y ∈ climbInputs H x (path.zip siblings), y ∈ T)
    (htree : ∀ lo' n', Part lo n lo' n' → 1 < n' → partInput H leafHashes lo' n' ∈ T)
    (h : climbed H x (path.zip siblings) = apex (node H) (leafAt leafHashes) lo n) :
    x = apex (node H) (leafAt leafHashes) lo' n' := by
  induction hpath generalizing siblings with
  | here => exact h
  | @left path lo n lo' n' hmany hpath ih =>
    obtain ⟨sib, siblings, rfl⟩ := List.exists_cons_of_length_eq_add_one hlen
    rw [List.zip_cons_cons, climbed, if_neg Bool.false_ne_true, apex_of_lt hmany] at h
    have hinputs := hinj _ (hclimb _ (List.mem_cons_self ..)) _
      (htree lo n .whole hmany) _ rfl (congrArg some h.symm)
    rw [if_neg Bool.false_ne_true] at hinputs
    exact ih (Nat.succ.inj hlen) (fun y hy => hclimb y (List.mem_cons_of_mem _ hy))
      (fun lo' n' hpart => htree lo' n' ((Part.whole.left hmany).trans hpart))
      (nodeInput_inj hinputs).1
  | @right path lo n lo' n' hmany hpath ih =>
    obtain ⟨sib, siblings, rfl⟩ := List.exists_cons_of_length_eq_add_one hlen
    rw [List.zip_cons_cons, climbed, if_pos rfl, apex_of_lt hmany] at h
    have hinputs := hinj _ (hclimb _ (List.mem_cons_self ..)) _
      (htree lo n .whole hmany) _ rfl (congrArg some h.symm)
    rw [if_pos rfl] at hinputs
    exact ih (Nat.succ.inj hlen) (fun y hy => hclimb y (List.mem_cons_of_mem _ hy))
      (fun lo' n' hpart => htree lo' n' ((Part.whole.right hmany).trans hpart))
      (nodeInput_inj hinputs).2

/-- What the end of a check that accepts has found: `steps` is the way down, `err` the answer
where the siblings are not as many. -/
theorem checked_ok {leafHash root : Bytes32} {leafCount : ℕ} {steps : Except BlobErr (List Bool)}
    {err : BlobErr} (h : (do
      let path ← steps
      if siblings.length ≠ path.length then .error err
      else do
        let acc ← climb (answering H) leafHash (path.zip siblings)
        let acc ← finaliseRoot (answering H) acc leafCount
        if acc = root then .ok () else .error .proof) = Except.ok ()) :
    ∃ path, steps = .ok path ∧ siblings.length = path.length ∧
      H (rootInput (climbed H leafHash (path.zip siblings)) leafCount) = root := by
  cases steps with
  | error e => cases h
  | ok path =>
    dsimp only [bind, Except.bind] at h
    obtain ⟨hlen, h⟩ := past_check h nofun
    rw [climb_answering] at h
    refine ⟨path, rfl, not_not.1 hlen, ?_⟩
    by_contra hne
    exact absurd ((if_neg hne).symm.trans h) (fun herr => nomatch herr)

/-- What a check that accepts has found. -/
theorem proofVerify_ok {leafHash root : Bytes32} {index leafCount : ℕ}
    (h : proofVerify (answering H) leafHash index leafCount siblings root = .ok ()) :
    leafCount ≤ maxLeaves ∧ index < leafCount ∧
      ∃ path, pathDown index maxDepth 0 leafCount = .ok path ∧ siblings.length = path.length ∧
        H (rootInput (climbed H leafHash (path.zip siblings)) leafCount) = root := by
  rw [proofVerify] at h
  obtain ⟨hshape, h⟩ := past_check h nofun
  rw [not_or, not_or, not_lt, not_le] at hshape
  refine ⟨hshape.2.1, hshape.2.2, ?_⟩
  obtain ⟨-, h⟩ := past_check h nofun
  exact checked_ok h

/-- **What is accepted under a root is what the root was made of**, where no two of the inputs
hashed share a hash. -/
theorem proofVerify_pins {leafHash : Bytes32} {index leafCount : ℕ}
    (hmax : leafHashes.length ≤ maxLeaves) (hinj : (answering H).InjOn
      (treeInputs H leafHashes ∪ verifyInputs H leafHash index leafCount siblings))
    (h : proofVerify (answering H) leafHash index leafCount siblings (rootOf H leafHashes) =
      .ok ()) : leafCount = leafHashes.length ∧ leafHashes[index]? = some leafHash := by
  obtain ⟨hcount, hindex, path, hpath, hlen, hroot⟩ := proofVerify_ok h
  have hroots := hinj _ (.inr ⟨path, hpath, .inr rfl⟩) _ (.inl (.inl rfl)) _ rfl
    (congrArg some hroot.symm)
  have hbound : maxLeaves < 2 ^ 64 := by decide
  obtain ⟨rfl, happex⟩ := rootInput_inj (by omega) (by omega) hroots
  have hleaf := (descends_of_pathDown (Nat.le_refl _) (Nat.zero_le _) (by omega) hcount hpath).pins
    hinj hlen (fun x hx => .inr ⟨path, hpath, .inl hx⟩)
    (fun lo n hpart hmany => .inl (.inr ⟨lo, n, hpart, hmany, rfl⟩)) happex
  rw [apex_one] at hleaf
  exact ⟨rfl, by rw [hleaf]; exact getElem?_getD hindex⟩

/-- Over two leaves and the check of the first, nothing collides. -/
example : (answering fun input => BitVec.ofNat 256 input.length).InjOn
    (treeInputs (fun input => BitVec.ofNat 256 input.length) [1, 2] ∪
      verifyInputs (fun input => BitVec.ofNat 256 input.length) 1 0 2 [2]) := by
  have hpart : ∀ {lo n : ℕ}, Part 0 2 lo n → 1 < n → lo = 0 ∧ n = 2 := by
    intro lo n hpart hmany
    have := hpart.bounds
    omega
  have htwo : ∀ x ∈ treeInputs (fun input => BitVec.ofNat 256 input.length) [1, 2] ∪
      verifyInputs (fun input => BitVec.ofNat 256 input.length) 1 0 2 [2],
      x = nodeInput 1 2 ∨ x = rootInput (BitVec.ofNat 256 65) 2 := by
    rintro x ((rfl | ⟨lo, n, h, hmany, rfl⟩) | ⟨path, hpath, hx⟩)
    · exact .inr (by decide +kernel)
    · obtain ⟨rfl, rfl⟩ := hpart h hmany
      exact .inl (by decide +kernel)
    · obtain rfl : [false] = path := Except.ok.inj hpath
      rcases hx with hx | rfl
      · exact .inl (List.mem_singleton.1 hx)
      · exact .inr (by decide)
  intro x hx y hy d hdx hdy
  have hlen : BitVec.ofNat 256 x.length = BitVec.ofNat 256 y.length :=
    Option.some.inj (hdx.trans hdy.symm)
  rcases htwo x hx with rfl | rfl <;> rcases htwo y hy with rfl | rfl
  · rfl
  · exact absurd hlen (by decide)
  · exact absurd hlen (by decide)
  · rfl

/-! ## One tree -/

/-- What makes a blob's tree one tree: its leaves are pushed and give its root, a proof built
for any of them is accepted, and nothing else is under a hash without collisions. -/
structure OneTree (H : Bytes → Bytes32) (leafHashes : List Bytes32) : Prop where
  pushed : ∃ t, pushes (answering H) Tree.init leafHashes = .ok t ∧
    treeRoot (answering H) t = .ok (rootOf H leafHashes)
  proved : ∀ index, index < leafHashes.length → ∃ siblings, siblings.length ≤ maxDepth ∧
    (∀ outCap, siblings.length * hashLen ≤ outCap →
      proofBuild (answering H) leafHashes index outCap = .ok siblings) ∧
    proofVerify (answering H) (leafAt leafHashes index) index leafHashes.length siblings
      (rootOf H leafHashes) = .ok ()
  pinned : ∀ leafHash index leafCount siblings,
    (answering H).InjOn
      (treeInputs H leafHashes ∪ verifyInputs H leafHash index leafCount siblings) →
    proofVerify (answering H) leafHash index leafCount siblings (rootOf H leafHashes) = .ok () →
      leafCount = leafHashes.length ∧ leafHashes[index]? = some leafHash

/-- **A blob's tree is one tree** just when it has fewer leaves than the largest one. -/
theorem one_tree_iff (hsome : leafHashes ≠ []) (hmax : leafHashes.length ≤ maxLeaves) :
    OneTree H leafHashes ↔ leafHashes.length < maxLeaves := by
  constructor
  · rintro ⟨⟨t, hpushed, -⟩, -, -⟩
    refine lt_of_le_of_ne hmax fun hfull => ?_
    rw [pushes_full hfull] at hpushed
    cases hpushed
  · intro hroom
    exact {
      pushed := treeRoot_pushes hsome hroom
      proved := fun index hindex => proofBuild_accepted hindex hmax
      pinned := fun leafHash index leafCount siblings hinj h => proofVerify_pins hmax hinj h }

/-- A tree of three leaves is one. -/
theorem one_tree_three : OneTree (fun input => BitVec.ofNat 256 (getBe input 1 64)) [1, 2, 3] :=
  (one_tree_iff (by decide) (by decide)).2 (by decide)

/-- **The largest tree is not**: its last leaf is refused. -/
theorem one_tree_largest :
    ¬OneTree (fun input => BitVec.ofNat 256 (getBe input 1 64)) (List.replicate maxLeaves 1) := by
  rintro ⟨⟨t, hpushed, -⟩, -, -⟩
  rw [pushes_full List.length_replicate] at hpushed
  cases hpushed

end Blob
end Fuzznet
