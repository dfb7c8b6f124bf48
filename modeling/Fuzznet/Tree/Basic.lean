/-
# Notes as nodes of a tree

`tree/tree.c`.  A node's record names its parent and its place among that parent's children,
and nobody decides between two writers' records of one note: the claims are a directed graph,
in which a note may stand under several parents, and on a cycle.

`fzn_tree_children` lists the claims under a parent, in the order of their keys and, for a
tie, of their ids.  `fzn_tree_reachable` marks what the root reaches, in passes over the
claims until one marks nothing: each pass before the last marks a claim, so it ends, and what
is marked then is what is connected to the root (`treeReachable_mark`), however the claims
are ordered (`connected_congr`).

The children are positions in the array of the claims, as the pointers of the source are.
The body of a node's record is its parent (32 bytes), its order (8), the type of its content
(2) and the content.
-/

import Fuzznet.Lib.Reach
import Fuzznet.Lib.SortBy
import Fuzznet.Notes.Store
import Mathlib.Data.Prod.Lex

namespace Fuzznet
namespace Tree

open Wire Record Lib
open Session (bytes32 length_bytes32)
open Notes (recordSubject)

/-- `fzn_tree_err_t`, without `FZN_TREE_OK`. -/
inductive TreeErr
  | shortBody
  | contentLen
  | null
  | capacity
  | range
  | closed
  | orderExhausted
  deriving DecidableEq, Repr

/-- `fzn_tree_node_t`. -/
structure TreeNode where
  id : Bytes32
  parent : Bytes32
  order : UInt64
  contentType : UInt16
  content : Bytes
  deriving DecidableEq, Repr

/-- The claims a caller hands over, in an array. -/
abbrev Claims := List TreeNode

/-- `FZN_TREE_BODY_HEADER_LEN`. -/
def treeBodyHeaderLen : ℕ := 42

/-- `FZN_TREE_CONTENT_MAX`. -/
def treeContentMax : ℕ := recordBodyMax - treeBodyHeaderLen

/-- `fzn_tree_is_root`. -/
def treeIsRoot (id : Bytes32) : Bool := decide (id = 0)

/-- `fzn_record_body_len`. -/
def recordBodyLen (r : RecordView) : ℕ := getBe r.bytes 122 2

/-- `fzn_record_body`, as long as it is. -/
def recordBody (r : RecordView) : Bytes :=
  (r.bytes.drop recordHeaderLen).take (recordBodyLen r)

/-- `fzn_tree_open`. -/
def treeOpen (r : RecordView) : Except TreeErr TreeNode :=
  if recordBodyLen r < treeBodyHeaderLen then .error .shortBody
  else .ok ⟨recordSubject r, BitVec.ofNat 256 (getBe (recordBody r) 0 32),
    UInt64.ofNat (getBe (recordBody r) 32 8), UInt16.ofNat (getBe (recordBody r) 40 2),
    (recordBody r).drop treeBodyHeaderLen⟩

/-- `fzn_tree_body`. -/
def treeBody (parent : Bytes32) (order : UInt64) (contentType : UInt16) (content : Bytes)
    (outCap : ℕ) : Except TreeErr Bytes :=
  if content.length > treeContentMax then .error .contentLen
  else if outCap < treeBodyHeaderLen + content.length then .error .capacity
  else .ok (bytes32 parent ++ (putBe 8 order.toNat ++ (putBe 2 contentType.toNat ++ content)))

/-- **A body written is read back**, about the record's subject. -/
theorem treeOpen_treeBody {parent : Bytes32} {order : UInt64} {contentType : UInt16}
    {content body : Bytes} {outCap : ℕ} {r : RecordView}
    (h : treeBody parent order contentType content outCap = .ok body) (hbody : recordBody r = body) :
    treeOpen r = .ok ⟨recordSubject r, parent, order, contentType, content⟩ := by
  unfold treeBody at h
  split_ifs at h
  obtain rfl := Except.ok.inj h
  have hparent := toNat_lt_bytes parent
  have horder := toNat_lt_be64 order
  have htype : contentType.toNat < 256 ^ 2 := contentType.toNat_lt
  have hlong : ¬ recordBodyLen r < treeBodyHeaderLen := by
    have hlen := congrArg List.length hbody
    simp only [recordBody, List.length_take, List.length_append, length_bytes32, length_putBe]
      at hlen
    unfold treeBodyHeaderLen
    omega
  unfold treeOpen
  rw [if_neg hlong, hbody]
  unfold bytes32 treeBodyHeaderLen
  simp (disch := omega) only [getBe_skip, Nat.reduceSub, getBe_putBe_of_lt, BitVec.ofNat_toNat,
    BitVec.setWidth_eq, UInt64.ofNat_toNat, UInt16.ofNat_toNat]
  rw [← List.append_assoc, ← List.append_assoc, List.drop_left' (by simp)]

/-- `fzn_tree_order_between`: whether there was room, and the key. -/
def treeOrderBetween (lo hi : UInt64) : Except TreeErr (Bool × UInt64) :=
  if lo > hi then .error .range
  else .ok (decide (lo + (hi - lo) / 2 ≠ lo), lo + (hi - lo) / 2)

/-- `fzn_tree_cmp`. -/
def treeCmp (a b : TreeNode) : Ordering :=
  if a.order < b.order then .lt
  else if a.order > b.order then .gt
  else if a.id < b.id then .lt
  else if a.id > b.id then .gt
  else .eq

/-- `fzn_tree_walk_t`. -/
structure TreeWalk where
  emitted : ℕ
  examined : ℕ
  truncated : Bool
  deriving DecidableEq, Repr

/-! ## The children of a parent -/

/-- What `child_cmp` compares: the order, the id, and where a claim stands. -/
def childRank (nodes : Claims) (i : ℕ) : ℕ ×ₗ ℕ ×ₗ ℕ :=
  match nodes[i]? with
  | none => toLex (0, toLex (0, i))
  | some node => toLex (node.order.toNat, toLex (node.id.toNat, i))

/-- One turn of the loop of `fzn_tree_children`. -/
def childTurn (parent : Bytes32) (outCap : ℕ) (s : List ℕ × TreeWalk) (at' : TreeNode × ℕ) :
    List ℕ × TreeWalk :=
  if at'.1.parent ≠ parent then (s.1, { s.2 with examined := s.2.examined + 1 })
  else if s.2.emitted = outCap then
    (s.1, { s.2 with examined := s.2.examined + 1, truncated := true })
  else (s.1 ++ [at'.2], { s.2 with examined := s.2.examined + 1, emitted := s.2.emitted + 1 })

/-- `fzn_tree_children`. -/
def treeChildren (nodes : Claims) (parent : Bytes32) (outCap : ℕ) : List ℕ × TreeWalk :=
  let s := nodes.zipIdx.foldl (childTurn parent outCap) ([], ⟨0, 0, false⟩)
  (sortBy (childRank nodes) s.1, s.2)

/-- How far a scan is that has met the children `found` among `n` claims. -/
structure ChildScan (outCap : ℕ) (found : List ℕ) (n : ℕ) (s : List ℕ × TreeWalk) : Prop where
  out : s.1 = found.take outCap
  emitted : s.2.emitted = min outCap found.length
  examined : s.2.examined = n
  truncated : s.2.truncated = true ↔ outCap < found.length

section Children

variable {parent : Bytes32} {outCap n : ℕ} {found : List ℕ} {s : List ℕ × TreeWalk}
  {at' : TreeNode × ℕ}

theorem ChildScan.skip (h : ChildScan outCap found n s) (hparent : at'.1.parent ≠ parent) :
    ChildScan outCap found (n + 1) (childTurn parent outCap s at') := by
  unfold childTurn
  rw [if_pos hparent]
  exact ⟨h.out, h.emitted, congrArg Nat.succ h.examined, h.truncated⟩

theorem ChildScan.meet (h : ChildScan outCap found n s) (hparent : at'.1.parent = parent) :
    ChildScan outCap (found ++ [at'.2]) (n + 1) (childTurn parent outCap s at') := by
  have hemitted := h.emitted
  have hlen : (found ++ [at'.2]).length = found.length + 1 := by
    rw [List.length_append, List.length_singleton]
  unfold childTurn
  rw [if_neg (not_not.2 hparent)]
  by_cases hfull : s.2.emitted = outCap
  · rw [if_pos hfull]
    refine ⟨?_, ?_, congrArg Nat.succ h.examined, ⟨fun _ => by omega, fun _ => rfl⟩⟩
    · rw [List.take_append_of_le_length (by omega)]
      exact h.out
    · rw [hlen]
      show s.2.emitted = _
      omega
  · rw [if_neg hfull]
    refine ⟨?_, ?_, congrArg Nat.succ h.examined, ?_⟩
    · rw [h.out, List.take_of_length_le (by omega), List.take_of_length_le (by omega)]
    · rw [hlen]
      show s.2.emitted + 1 = _
      omega
    · rw [hlen]
      refine ⟨fun htrue => ?_, fun hlt => by omega⟩
      have := h.truncated.1 htrue
      omega

/-- **A scan for children** finds as many as there is room for, and says whether there are
more. -/
theorem childScan (parent : Bytes32) (outCap : ℕ) (l : List (TreeNode × ℕ)) :
    ChildScan outCap ((l.filter fun at' => decide (at'.1.parent = parent)).map Prod.snd) l.length
      (l.foldl (childTurn parent outCap) ([], ⟨0, 0, false⟩)) := by
  induction l using List.reverseRecOn with
  | nil => exact ⟨List.take_nil.symm, (Nat.min_zero _).symm, rfl, by simp⟩
  | append_singleton l at' ih =>
    rw [List.foldl_append, List.foldl_cons, List.foldl_nil, List.length_append,
      List.length_singleton, List.filter_append, List.map_append]
    by_cases hparent : at'.1.parent = parent
    · rw [List.filter_cons_of_pos (by simpa using hparent), List.filter_nil, List.map_singleton]
      exact ih.meet hparent
    · rw [List.filter_cons_of_neg (by simpa using hparent), List.filter_nil, List.map_nil,
        List.append_nil]
      exact ih.skip hparent

/-- There are no more children than claims. -/
theorem length_found_le (nodes : Claims) (parent : Bytes32) :
    ((nodes.zipIdx.filter fun at' => decide (at'.1.parent = parent)).map Prod.snd).length ≤
      nodes.length := by
  rw [List.length_map]
  refine (List.length_filter_le _ _).trans ?_
  rw [List.length_zipIdx]

/-- **With room for all, the children listed are the claims that name the parent.** -/
theorem mem_treeChildren {nodes : Claims} {i : ℕ} (hroom : nodes.length ≤ outCap) :
    i ∈ (treeChildren nodes parent outCap).1 ↔
      ∃ node, nodes[i]? = some node ∧ node.parent = parent := by
  rw [treeChildren, mem_sortBy, (childScan parent outCap nodes.zipIdx).out,
    List.take_of_length_le ((length_found_le nodes parent).trans hroom), List.mem_map]
  constructor
  · rintro ⟨⟨node, k⟩, hmem, rfl⟩
    obtain ⟨hin, hparent⟩ := List.mem_filter.1 hmem
    exact ⟨node, List.mk_mem_zipIdx_iff_getElem?.1 hin, of_decide_eq_true hparent⟩
  · rintro ⟨node, hat, hparent⟩
    exact ⟨(node, i), List.mem_filter.2 ⟨List.mk_mem_zipIdx_iff_getElem?.2 hat,
      decide_eq_true hparent⟩, rfl⟩

/-- With room for all, none is left out. -/
theorem truncated_treeChildren {nodes : Claims} (hroom : nodes.length ≤ outCap) :
    (treeChildren nodes parent outCap).2.truncated = false := by
  refine Bool.eq_false_of_not_eq_true fun htrue => ?_
  have hlt := (childScan parent outCap nodes.zipIdx).truncated.1 htrue
  exact absurd (hlt.trans_le (length_found_le nodes parent)) (Nat.not_lt.2 hroom)

/-- A claim is listed once. -/
theorem nodup_treeChildren (nodes : Claims) (parent : Bytes32) (outCap : ℕ) :
    (treeChildren nodes parent outCap).1.Nodup := by
  rw [treeChildren, (sortBy_perm _).nodup_iff, (childScan parent outCap nodes.zipIdx).out]
  refine (List.take_sublist _ _).nodup ((List.filter_sublist.map _).nodup ?_)
  rw [List.zipIdx_map_snd]
  exact List.nodup_range'

end Children

/-! ## What the root reaches -/

/-- The marks during a pass, whether it has marked one, and `walk->examined`. -/
structure TreePass (nodes : Claims) where
  mark : Vector Bool nodes.length
  changed : Bool
  examined : ℕ

/-- The inner loop: whether a marked claim is on the note `id`. -/
def markedOn (nodes : Claims) (mark : Vector Bool nodes.length) (id : Bytes32) : Bool :=
  (List.finRange nodes.length).any fun j => mark[j] && decide (nodes[j].id = id)

/-- One turn of a pass. -/
def reachTurn (nodes : Claims) (p : TreePass nodes) (i : Fin nodes.length) :
    TreePass nodes :=
  if p.mark[i] then p
  else if treeIsRoot nodes[i].parent || markedOn nodes p.mark nodes[i].parent then
    ⟨p.mark.set i true, true, p.examined + 1⟩
  else ⟨p.mark, p.changed, p.examined + 1⟩

/-- One pass over the claims. -/
def reachPass (nodes : Claims) (mark : Vector Bool nodes.length) (examined : ℕ) :
    TreePass nodes :=
  (List.finRange nodes.length).foldl (reachTurn nodes) ⟨mark, false, examined⟩

section Pass

variable {nodes : Claims} {mark mark' : Vector Bool nodes.length}

/-- A claim marked is one fewer that is not. -/
theorem count_set_true {i : Fin nodes.length} (h : mark[i] = false) :
    (mark.set i true).count false + 1 = mark.count false := by
  have hpos : 0 < mark.count false := by
    rw [Vector.count_pos_iff]
    exact h ▸ Vector.getElem_mem i.isLt
  rw [Vector.count_set i.isLt, if_pos (by exact beq_iff_eq.2 h), if_neg (by simp)]
  omega

/-- How far a pass is: nothing marked yet and every claim looked at left out, or one marked. -/
structure Passed (nodes : Claims) (mark : Vector Bool nodes.length) (examined : ℕ)
    (looked : List (Fin nodes.length)) (p : TreePass nodes) : Prop where
  examined : p.examined ≤ examined + looked.length
  count : p.mark.count false ≤ mark.count false
  fewer : p.changed = true → p.mark.count false < mark.count false
  settled : p.changed = false → p.mark = mark ∧ ∀ i ∈ looked,
    mark[i] = true ∨ treeIsRoot nodes[i].parent = false ∧ markedOn nodes mark nodes[i].parent = false

variable {examined : ℕ} {looked : List (Fin nodes.length)} {p : TreePass nodes}

theorem Passed.turn (h : Passed nodes mark examined looked p) (i : Fin nodes.length) :
    Passed nodes mark examined (looked ++ [i]) (reachTurn nodes p i) := by
  have hlen : (looked ++ [i]).length = looked.length + 1 := by
    rw [List.length_append, List.length_singleton]
  have hle := h.examined
  unfold reachTurn
  split_ifs with hin hon
  · refine ⟨by omega, h.count, h.fewer, fun hno => ?_⟩
    obtain ⟨hsame, hall⟩ := h.settled hno
    refine ⟨hsame, fun j hj => ?_⟩
    rcases List.mem_append.1 hj with hj | hj
    · exact hall j hj
    · rw [List.mem_singleton.1 hj, ← hsame]
      exact Or.inl hin
  · have hcount := count_set_true (Bool.eq_false_of_not_eq_true hin)
    have hmark := h.count
    have hset : (p.mark.set i true).count false < mark.count false := by omega
    exact ⟨by show p.examined + 1 ≤ _; omega, hset.le, fun _ => hset, fun hno => (by cases hno)⟩
  · refine ⟨by show p.examined + 1 ≤ _; omega, h.count, h.fewer, fun hno => ?_⟩
    obtain ⟨hsame, hall⟩ := h.settled hno
    refine ⟨hsame, fun j hj => ?_⟩
    rcases List.mem_append.1 hj with hj | hj
    · exact hall j hj
    · rw [Bool.or_eq_true, not_or, Bool.not_eq_true, Bool.not_eq_true, hsame] at hon
      rw [List.mem_singleton.1 hj]
      exact Or.inr hon

/-- **A pass that marks nothing has left out every claim it looked at.** -/
theorem passed_reachPass (mark : Vector Bool nodes.length) (examined : ℕ) :
    Passed nodes mark examined (List.finRange nodes.length) (reachPass nodes mark examined) := by
  unfold reachPass
  refine prefix_induction (P := fun pre => Passed nodes mark examined pre
    (pre.foldl (reachTurn nodes) ⟨mark, false, examined⟩)) ?_ fun pre i _ ih => ?_
  · exact ⟨le_rfl, le_rfl, fun hno => (by cases hno), fun _ => ⟨rfl, fun j hj => by cases hj⟩⟩
  · rw [List.foldl_append]
    exact ih.turn i

end Pass

/-- The passes of `fzn_tree_reachable`: the marks, and `walk->examined`. -/
def reachLoop (nodes : Claims) (mark : Vector Bool nodes.length) (examined : ℕ) :
    Vector Bool nodes.length × ℕ :=
  if _h : (reachPass nodes mark examined).changed = true then
    reachLoop nodes (reachPass nodes mark examined).mark (reachPass nodes mark examined).examined
  else ((reachPass nodes mark examined).mark, (reachPass nodes mark examined).examined)
termination_by mark.count false
decreasing_by exact (passed_reachPass mark examined).fewer _h

/-- `fzn_tree_reachable`. -/
def treeReachable (nodes : Claims) (markCap : ℕ) :
    Except TreeErr (Vector Bool nodes.length × TreeWalk) :=
  if markCap < nodes.length then .error .capacity
  else
    let s := reachLoop nodes (Vector.replicate nodes.length false) 0
    .ok (s.1, ⟨s.1.count true, s.2, false⟩)

/-- **A claim is connected to the root** that names it its parent, or the note of a claim that
is. -/
def Connected (nodes : Claims) : TreeNode → Prop :=
  Reach (fun node => node ∈ nodes ∧ node.parent = 0)
    fun up node => node ∈ nodes ∧ up.id = node.parent

/-- What is connected does not hang on how the claims are ordered. -/
theorem connected_congr {nodes nodes' : Claims} (h : ∀ node, node ∈ nodes' ↔ node ∈ nodes)
    {node : TreeNode} : Connected nodes' node ↔ Connected nodes node :=
  reach_equiv (Equiv.refl TreeNode) (fun _ => and_congr_left fun _ => h _)
    fun _ _ => and_congr_left fun _ => h _

section Loop

variable {nodes : Claims} {mark : Vector Bool nodes.length}

theorem markedOn_iff {id : Bytes32} :
    markedOn nodes mark id = true ↔ ∃ j : Fin nodes.length, mark[j] = true ∧ nodes[j].id = id := by
  rw [markedOn, List.any_eq_true]
  simp only [List.mem_finRange, true_and, Bool.and_eq_true, decide_eq_true_eq]

/-- Only what is connected is marked. -/
def Sound (nodes : Claims) (mark : Vector Bool nodes.length) : Prop :=
  ∀ i : Fin nodes.length, mark[i] = true → Connected nodes nodes[i]

theorem Sound.turn {p : TreePass nodes} (h : Sound nodes p.mark) (i : Fin nodes.length) :
    Sound nodes (reachTurn nodes p i).mark := by
  unfold reachTurn
  split_ifs with hin hon
  · exact h
  · intro j hj
    by_cases hij : i = j
    · subst hij
      rcases Bool.or_eq_true_iff.1 hon with hroot | hon
      · exact .start ⟨List.getElem_mem i.isLt, of_decide_eq_true hroot⟩
      · obtain ⟨k, hk, hid⟩ := markedOn_iff.1 hon
        exact .link (h k hk) ⟨List.getElem_mem i.isLt, hid⟩
    · refine h j ?_
      rwa [Fin.getElem_fin, Vector.getElem_set_ne _ _ fun heq => hij (Fin.ext heq)] at hj
  · exact h

theorem Sound.pass (h : Sound nodes mark) (examined : ℕ) :
    Sound nodes (reachPass nodes mark examined).mark :=
  foldl_induction (P := fun p : TreePass nodes => Sound nodes p.mark) (fun _ i _ hp => hp.turn i) h

/-- Marks that leave out what the root does not reach and what no marked claim is above are all
the connected claims. -/
theorem mark_of_settled (hsound : Sound nodes mark)
    (hsettled : ∀ i : Fin nodes.length, mark[i] = true ∨
      treeIsRoot nodes[i].parent = false ∧ markedOn nodes mark nodes[i].parent = false)
    (i : Fin nodes.length) : mark[i] = true ↔ Connected nodes nodes[i] := by
  refine ⟨hsound i, fun h => ?_⟩
  have hall := Reach.mem (S := fun node => node ∈ nodes ∧
    ∀ j : Fin nodes.length, nodes[j] = node → mark[j] = true) ?_ ?_ h
  · exact hall.2 i rfl
  · rintro node ⟨hin, hroot⟩
    refine ⟨hin, fun j hj => (hsettled j).resolve_right fun hout => ?_⟩
    rw [hj, treeIsRoot, decide_eq_false_iff_not] at hout
    exact hout.1 hroot
  · rintro up node ⟨hup, hmarked⟩ ⟨hin, hid⟩
    refine ⟨hin, fun j hj => (hsettled j).resolve_right fun hout => ?_⟩
    obtain ⟨k, hk, hkup⟩ := List.getElem_of_mem hup
    have hon : markedOn nodes mark nodes[j].parent = true :=
      markedOn_iff.2 ⟨⟨k, hk⟩, hmarked ⟨k, hk⟩ hkup, by rw [hj, ← hid, ← hkup]; rfl⟩
    rw [hout.2] at hon
    cases hon

/-- **The passes end with the connected claims marked.** -/
theorem reachLoop_mark (h : Sound nodes mark) (examined : ℕ) (i : Fin nodes.length) :
    (reachLoop nodes mark examined).1[i] = true ↔ Connected nodes nodes[i] := by
  induction mark, examined using reachLoop.induct with
  | case1 mark examined hchanged ih =>
    rw [reachLoop, dif_pos hchanged]
    exact ih (h.pass examined)
  | case2 mark examined hdone =>
    rw [reachLoop, dif_neg hdone]
    have hpassed := passed_reachPass mark examined
    obtain ⟨hsame, hall⟩ := hpassed.settled (Bool.eq_false_of_not_eq_true hdone)
    rw [hsame]
    exact mark_of_settled h (fun j => hall j (List.mem_finRange j)) i

/-- **Every claim is looked at in each pass, and a pass before the last marks one.** -/
theorem reachLoop_examined (mark : Vector Bool nodes.length) (examined : ℕ) :
    (reachLoop nodes mark examined).2 ≤ examined + nodes.length * (mark.count false + 1) := by
  induction mark, examined using reachLoop.induct with
  | case1 mark examined hchanged ih =>
    rw [reachLoop, dif_pos hchanged]
    have hpassed := passed_reachPass mark examined
    have hlooked := hpassed.examined
    rw [List.length_finRange] at hlooked
    have hmul := Nat.mul_le_mul_left nodes.length (Nat.succ_le_of_lt (hpassed.fewer hchanged))
    rw [Nat.mul_succ] at hmul ⊢
    rw [Nat.mul_add, Nat.mul_one] at ih
    omega
  | case2 mark examined hdone =>
    rw [reachLoop, dif_neg hdone]
    have hlooked := (passed_reachPass mark examined).examined
    rw [List.length_finRange] at hlooked
    rw [Nat.mul_succ]
    omega

end Loop

/-- Marks answered are those of the connected claims. -/
theorem mark_of_treeReachable {nodes : Claims} {markCap : ℕ}
    {mark : Vector Bool nodes.length} {walk : TreeWalk}
    (h : treeReachable nodes markCap = .ok (mark, walk)) (i : Fin nodes.length) :
    mark[i] = true ↔ Connected nodes nodes[i] := by
  unfold treeReachable at h
  split_ifs at h
  obtain ⟨rfl, -⟩ := Prod.mk.inj (Except.ok.inj h)
  refine reachLoop_mark (fun j hj => ?_) 0 i
  rw [Fin.getElem_fin, Vector.getElem_replicate] at hj
  cases hj

/-- **What the root reaches is marked**, and nothing else. -/
theorem treeReachable_mark {nodes : Claims} {markCap : ℕ} (h : nodes.length ≤ markCap) :
    ∃ mark walk, treeReachable nodes markCap = .ok (mark, walk) ∧
      walk.examined ≤ nodes.length * (nodes.length + 1) ∧
      ∀ i : Fin nodes.length, mark[i] = true ↔ Connected nodes nodes[i] := by
  have hok : ∃ mark walk, treeReachable nodes markCap = .ok (mark, walk) ∧
      walk.examined = (reachLoop nodes (Vector.replicate nodes.length false) 0).2 :=
    ⟨_, _, if_neg (Nat.not_lt.2 h), rfl⟩
  obtain ⟨mark, walk, hok, hexamined⟩ := hok
  refine ⟨_, _, hok, ?_, mark_of_treeReachable hok⟩
  have hbound := reachLoop_examined (Vector.replicate nodes.length false) 0
  rw [Vector.count_replicate_self, Nat.zero_add] at hbound
  exact hexamined ▸ hbound

end Tree
end Fuzznet
