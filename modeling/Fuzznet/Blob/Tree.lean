/-
# The streaming tree of a blob

`blob/blob.c`: the interior node of a blob's tree, the tree that leaves are pushed into one
by one, and its root, which binds the leaf count.

Pushing the leaves keeps the stack that their number spells in binary, and the root is the
one of the tree split at powers of two (`treeRoot_pushes`).  The stack has room for one hash
less than the last leaf of the largest tree would need before it is folded, so that leaf is
refused (`push_last`).
-/

import Fuzznet.Lib.SplitTree
import Fuzznet.Lib.Text
import Fuzznet.Session.Derive

namespace Fuzznet
namespace Blob

open Wire Lib
open Session (bytes32 length_bytes32 bytes32_append_inj)

/-- `FZN_BLOB_HASH_LEN`. -/
def hashLen : ℕ := 32

/-- `FZN_BLOB_MAX_DEPTH`. -/
def maxDepth : ℕ := 40

/-- `FZN_BLOB_MAX_LEAVES`. -/
def maxLeaves : ℕ := 2 ^ maxDepth

/-- `fzn_blob_err_t`, the codes the tree and its proofs return. -/
inductive BlobErr
  | malformed
  | hash
  | shape
  | proof
  | full
  | io
  deriving DecidableEq, Repr

/-- `FZN_BLOB_ROOT_LABEL`. -/
def rootLabel : Bytes := ascii "fuzznet-root-v1" ++ [0]

/-- What an interior node hashes, behind `FZN_BLOB_NODE_PREFIX`. -/
def nodeInput (left right : Bytes32) : Bytes := 1 :: (bytes32 left ++ bytes32 right)

/-- What a root hashes. -/
def rootInput (apex : Bytes32) (leafCount : ℕ) : Bytes :=
  rootLabel ++ putBe 8 leafCount ++ bytes32 apex

/-- A hash, or the code of one that refused. -/
def hashed (ops : HashOps) (input : Bytes) : Except BlobErr Bytes32 :=
  match ops.hash input with
  | none => .error .hash
  | some d => .ok d

/-- `fzn_blob_node_hash`. -/
def nodeHash (ops : HashOps) (left right : Bytes32) : Except BlobErr Bytes32 :=
  hashed ops (nodeInput left right)

/-- `finalise_root`. -/
def finaliseRoot (ops : HashOps) (apex : Bytes32) (leafCount : ℕ) : Except BlobErr Bytes32 :=
  hashed ops (rootInput apex leafCount)

/-- `fzn_blob_tree_t`: the stack with its top first, each hash behind its level. -/
structure Tree where
  stack : List (ℕ × Bytes32)
  leaves : ℕ
  deriving DecidableEq

/-- `fzn_blob_tree_init`. -/
def Tree.init : Tree := ⟨[], 0⟩

/-- The loop of `fzn_blob_tree_push`: `x` at `level` on a stack, folded while the top two are
of one height. -/
def foldTop (ops : HashOps) (level : ℕ) (x : Bytes32) :
    List (ℕ × Bytes32) → Except BlobErr (List (ℕ × Bytes32))
  | [] => .ok [(level, x)]
  | e :: rest =>
    if e.1 = level then do
      let y ← nodeHash ops e.2 x
      foldTop ops (level + 1) y rest
    else .ok ((level, x) :: e :: rest)

/-- `fzn_blob_tree_push`. -/
def treePush (ops : HashOps) (t : Tree) (leafHash : Bytes32) : Except BlobErr Tree :=
  if maxLeaves ≤ t.leaves then .error .full
  else if maxDepth ≤ t.stack.length then .error .full
  else do
    let stack ← foldTop ops 0 leafHash t.stack
    .ok ⟨stack, t.leaves + 1⟩

/-- `tree_apex`. -/
def treeApex (ops : HashOps) (t : Tree) : Except BlobErr Bytes32 :=
  match t.stack with
  | [] => .error .malformed
  | top :: rest => rest.foldlM (fun acc e => nodeHash ops e.2 acc) top.2

/-- `fzn_blob_tree_root`. -/
def treeRoot (ops : HashOps) (t : Tree) : Except BlobErr Bytes32 :=
  if t.stack = [] then .error .malformed
  else do
    let apex ← treeApex ops t
    finaliseRoot ops apex t.leaves

/-- Leaf hashes pushed one behind the other. -/
def pushes (ops : HashOps) (t : Tree) (leafHashes : List Bytes32) : Except BlobErr Tree :=
  leafHashes.foldlM (treePush ops) t

/-! ## A hash that answers -/

/-- An interior node under such a hash. -/
def node (H : Bytes → Bytes32) (left right : Bytes32) : Bytes32 := H (nodeInput left right)

/-- The root over leaves, by the tree split at powers of two. -/
def rootOf (H : Bytes → Bytes32) (leafHashes : List Bytes32) : Bytes32 :=
  H (rootInput (apex (node H) (fun i => leafHashes.getD i 0) 0 leafHashes.length) leafHashes.length)

variable {H : Bytes → Bytes32}

theorem foldTop_answering (level : ℕ) (x : Bytes32) (stack : List (ℕ × Bytes32)) :
    foldTop (answering H) level x stack = .ok (carry (node H) level x stack) := by
  induction stack generalizing level x with
  | nil => rfl
  | cons e rest ih =>
    rw [foldTop, carry]
    split
    next => exact ih _ _
    next => rfl

theorem foldlM_answering (acc : Bytes32) (stack : List (ℕ × Bytes32)) :
    stack.foldlM (fun acc e => nodeHash (answering H) e.2 acc) acc =
      (.ok (stack.foldl (fun acc e => node H e.2 acc) acc) : Except BlobErr Bytes32) := by
  induction stack generalizing acc with
  | nil => rfl
  | cons e rest ih => exact ih _

/-! ## Pushing leaves -/

/-- A tree that leaves have been pushed into. -/
def Pushed (H : Bytes → Bytes32) (f : ℕ → Bytes32) (t : Tree) : Prop :=
  Stacked (node H) f t.leaves t.stack

variable {f : ℕ → Bytes32} {t : Tree}

theorem Pushed.init : Pushed H f Tree.init := Stacked.nil

/-- **A leaf pushed into a tree with room** keeps it one. -/
theorem Pushed.push (h : Pushed H f t) (hroom : t.leaves + 1 < maxLeaves) :
    ∃ t', treePush (answering H) t (f t.leaves) = .ok t' ∧ Pushed H f t' ∧
      t'.leaves = t.leaves + 1 := by
  have hlen : t.stack.length < maxDepth := by
    have hle := Stacked.two_pow_length_le (l := 0) h (fun _ _ => Nat.zero_le _)
    rw [Nat.pow_zero, Nat.one_mul] at hle
    exact (Nat.pow_lt_pow_iff_right one_lt_two).1 (lt_of_le_of_lt hle hroom)
  refine ⟨⟨carry (node H) 0 (f t.leaves) t.stack, t.leaves + 1⟩, ?_, ?_, rfl⟩
  · rw [treePush, if_neg (by omega), if_neg (by omega), foldTop_answering]
    rfl
  · have hcarry := Stacked.carry (l := 0) h (fun _ _ => Nat.zero_le _)
    rwa [Nat.pow_zero, apex_one] at hcarry

/-- **The last leaf of the largest tree** meets a full stack. -/
theorem Pushed.push_last (h : Pushed H f t) (hlast : t.leaves + 1 = maxLeaves) (x : Bytes32) :
    treePush (answering H) t x = .error .full := by
  have hlen : t.stack.length = maxDepth :=
    Stacked.length_eq (l := 0) h (fun _ _ => Nat.zero_le _) (by
      rw [Nat.pow_zero, Nat.zero_add, hlast, maxLeaves])
  rw [treePush]
  split
  next => rfl
  next => rw [if_pos hlen.ge]

theorem Pushed.pushes {l : List Bytes32} (h : Pushed H f t)
    (hl : ∀ i, i < l.length → l[i]? = some (f (t.leaves + i)))
    (hroom : t.leaves + l.length < maxLeaves) :
    ∃ t', pushes (answering H) t l = .ok t' ∧ Pushed H f t' ∧ t'.leaves = t.leaves + l.length := by
  induction l generalizing t with
  | nil => exact ⟨t, rfl, h, rfl⟩
  | cons x l ih =>
    rw [List.length_cons] at hroom
    obtain rfl : x = f t.leaves := Option.some.inj (hl 0 (by simp))
    obtain ⟨t', hpush, h', hleaves⟩ := h.push (by omega)
    obtain ⟨t'', hpushes, h'', hleaves'⟩ := ih h' (fun i hi => by
      have := hl (i + 1) (by simpa using hi)
      rwa [List.getElem?_cons_succ, show t.leaves + (i + 1) = t'.leaves + i by omega] at this)
      (by omega)
    refine ⟨t'', ?_, h'', by rw [hleaves', hleaves, List.length_cons]; omega⟩
    rw [Blob.pushes, List.foldlM_cons, hpush]
    exact hpushes

/-- The apex of a tree is the one of the leaves pushed. -/
theorem Pushed.treeApex (h : Pushed H f t) (hsome : 0 < t.leaves) :
    treeApex (answering H) t = .ok (apex (node H) f 0 t.leaves) := by
  obtain ⟨stack, leaves⟩ := t
  rw [Pushed] at h
  cases h with
  | nil => exact absurd hsome (Nat.lt_irrefl _)
  | @cons m l rest below higher =>
    rw [Blob.treeApex]
    dsimp only
    rw [foldlM_answering, fold_stacked below (Nat.two_pow_pos l)]
    · rfl
    · exact fun e he => Nat.pow_le_pow_right Nat.two_pos (higher e he).le

theorem Pushed.stack_ne_nil (h : Pushed H f t) (hsome : 0 < t.leaves) : t.stack ≠ [] := by
  obtain ⟨stack, leaves⟩ := t
  rintro rfl
  rw [Pushed] at h
  cases h
  exact absurd hsome (Nat.lt_irrefl _)

theorem Pushed.treeRoot (h : Pushed H f t) (hsome : 0 < t.leaves) :
    treeRoot (answering H) t = .ok (H (rootInput (apex (node H) f 0 t.leaves) t.leaves)) := by
  rw [Blob.treeRoot, if_neg (h.stack_ne_nil hsome), h.treeApex hsome]
  rfl

theorem getElem?_getD {l : List Bytes32} {i : ℕ} (h : i < l.length) :
    l[i]? = some (l.getD i 0) := by
  rw [List.getD_eq_getElem?_getD, List.getElem?_eq_getElem h, Option.getD_some]

/-- **Fewer leaves than the largest tree has** are pushed, and their root is the tree's. -/
theorem treeRoot_pushes {leafHashes : List Bytes32} (hsome : leafHashes ≠ [])
    (hroom : leafHashes.length < maxLeaves) :
    ∃ t, pushes (answering H) Tree.init leafHashes = .ok t ∧
      treeRoot (answering H) t = .ok (rootOf H leafHashes) := by
  obtain ⟨t, hpushes, ht, hleaves⟩ :=
    (Pushed.init (H := H) (f := fun i => leafHashes.getD i 0)).pushes (l := leafHashes)
      (fun i hi => by rw [Tree.init, Nat.zero_add]; exact getElem?_getD hi)
      (by rwa [Tree.init, Nat.zero_add])
  rw [Tree.init, Nat.zero_add] at hleaves
  refine ⟨t, hpushes, ?_⟩
  rw [ht.treeRoot (by rw [hleaves]; exact List.length_pos_iff.2 hsome), hleaves, rootOf]

/-- **As many leaves as the largest tree has** are not: the last one is refused. -/
theorem pushes_full {leafHashes : List Bytes32} (hfull : leafHashes.length = maxLeaves) :
    pushes (answering H) Tree.init leafHashes = .error .full := by
  have hpos : 0 < leafHashes.length := by
    rw [hfull]
    exact Nat.two_pow_pos _
  obtain ⟨front, x, rfl⟩ : ∃ front x, leafHashes = front ++ [x] :=
    ⟨_, _, (List.dropLast_concat_getLast (List.length_pos_iff.1 hpos)).symm⟩
  rw [List.length_append, List.length_singleton] at hfull
  obtain ⟨t, hpushes, ht, hleaves⟩ :=
    (Pushed.init (H := H) (f := fun i => front.getD i 0)).pushes (l := front)
      (fun i hi => by rw [Tree.init, Nat.zero_add]; exact getElem?_getD hi)
      (by rw [Tree.init, Nat.zero_add]; omega)
  rw [Tree.init, Nat.zero_add] at hleaves
  have hlast := ht.push_last (by rw [hleaves]; exact hfull) x
  rw [Blob.pushes] at hpushes ⊢
  rw [List.foldlM_append, hpushes]
  show treePush (answering H) t x >>= pure = _
  rw [hlast]
  rfl

end Blob
end Fuzznet
