/-
# The notes as they are shown, and where a note goes

`notes/view.c`; `notes/author.c`.  A view is every claim the store holds that reads as a node, loaded at once,
with the claims the root reaches marked.  `fzn_notes_top_level` lists the root's children
and then every claim that is not marked, and `fzn_notes_children` the claims under a note.

A claim that is marked is a child of the root, or of a claim that is marked, and one that is
not is at the top: so where the output has room, every claim of a loaded view is shown
(`no_note_vanishes`), wherever the claims' parents lead.

A view is kept while the store's stamp stands.  `FZN_NOTES_MAX` rows fit in the arena, and the
list of rows has no more.

`order_after` places a note last among the claims its new parent has: its
order is half way from the highest of theirs to the end of the range (`orderAfter_last`).
Where no key is left between, it is the highest itself: this happens at the last two keys of
the range, and the ids then order the notes.

`above` refuses a move under what the note is above: a walk up the claims from the new
parent, over every writer's, that comes to the note.  The way up ends at the root, which is
not a note, and each claim is walked once, so the walk ends (`aboveLoop_ends`); one that
answers no has seen every claim on the way up (`above_false`).
-/

import Fuzznet.Tree.Basic
import Mathlib.Data.List.Perm.Subperm

namespace Fuzznet
namespace Notes

open Wire Record Lib
open Fuzznet.Tree

/-- `fzn_notes_view_t`, with the backend it was loaded from, if it was.  The arena's bytes are
the nodes'. -/
structure NotesView where
  arenaUsed : ℕ
  nodes : List TreeNode
  writers : List Key
  mark : Vector Bool nodes.length
  unreadable : ℕ
  loadedFrom : Option ℕ
  loadedAt : UInt64
  generation : UInt64

/-- A view that was never loaded. -/
def blankView : NotesView := ⟨0, [], [], Vector.replicate 0 false, 0, none, 0, 0⟩

/-- What the loop of `fzn_notes_view_load` has read. -/
structure ViewRead where
  arenaUsed : ℕ
  nodes : List TreeNode
  writers : List Key
  unreadable : ℕ

/-- `sizeof(view->arena)`. -/
def arenaSize : ℕ := notesMax * recordMaxLen

section View

variable (st : NotesStore)

/-- A claim read as a node, with its record. -/
def readNode (d : NotesDisk) (key : Bytes32) : Option (RecordView × TreeNode) :=
  match notesGetKey st d key with
  | .error _ => none
  | .ok r =>
    if recordKind r ≠ noteKind then none
    else match treeOpen r with
      | .error _ => none
      | .ok node => some (r, node)

/-- The loop of `fzn_notes_view_load`: whether there was room, and what was read. -/
def viewRead (d : NotesDisk) : List Bytes32 → ViewRead → Bool × ViewRead
  | [], s => (true, s)
  | key :: keys, s =>
    if arenaSize - s.arenaUsed < recordMaxLen then (false, s)
    else match readNode st d key with
      | none => viewRead d keys { s with unreadable := s.unreadable + 1 }
      | some (r, node) => viewRead d keys
          ⟨s.arenaUsed + r.bytes.length, s.nodes ++ [node], s.writers ++ [r.issuer],
            s.unreadable⟩

/-- A view of what was read, nothing marked. -/
def unmarked (s : ViewRead) (v : NotesView) : NotesView :=
  ⟨s.arenaUsed, s.nodes, s.writers, Vector.replicate s.nodes.length false, s.unreadable, none,
    v.loadedAt, v.generation + 1⟩

/-- The marks of what was read. -/
def viewMark (nodes : List TreeNode) : Except TreeErr (Vector Bool nodes.length) :=
  if 0 < nodes.length then (treeReachable nodes notesMax).map Prod.fst
  else .ok (Vector.replicate nodes.length false)

/-- `fzn_notes_view_load`, from the backend `ops`; the stamp is the store's, where it has
one. -/
def viewLoad (ops : ℕ) (stamp : Option UInt64) (v : NotesView) (d : NotesDisk) :
    (NotesErr × NotesView) × NotesDisk :=
  if stamp.isSome ∧ v.loadedFrom = some ops ∧ v.loadedAt = stamp.getD 0 then ((.ok, v), d)
  else match notesClaims d with
    | (none, d) => ((.backend, unmarked ⟨0, [], [], 0⟩ v), d)
    | (some keys, d) => match viewRead st d keys ⟨0, [], [], 0⟩ with
      | (false, s) => ((.full, unmarked s v), d)
      | (true, s) => match viewMark s.nodes with
        | .error _ => ((.malformed, unmarked s v), d)
        | .ok mark => ((.ok, ⟨s.arenaUsed, s.nodes, s.writers, mark, s.unreadable,
            if stamp.isSome then some ops else none,
            if stamp.isSome then stamp.getD 0 else v.loadedAt, v.generation + 1⟩), d)

end View

/-- `fzn_notes_children`: where the claims under `parent` stand, and whether there are more. -/
def notesChildren (v : NotesView) (parent : Bytes32) (cap : ℕ) : List ℕ × Bool :=
  if v.nodes.length = 0 then ([], false)
  else ((treeChildren v.nodes parent cap).1, (treeChildren v.nodes parent cap).2.truncated)

/-- One turn of the loop of `fzn_notes_top_level`. -/
def topTurn (v : NotesView) (cap : ℕ) (s : List ℕ × Bool) (i : Fin v.nodes.length) :
    List ℕ × Bool :=
  if s.2 then s
  else if v.mark[i] then s
  else if cap ≤ s.1.length then (s.1, true)
  else (s.1 ++ [i.1], false)

/-- `fzn_notes_top_level`. -/
def notesTopLevel (v : NotesView) (cap : ℕ) : List ℕ × Bool :=
  (List.finRange v.nodes.length).foldl (topTurn v cap) (notesChildren v 0 cap)

/-! ## A view loaded -/

/-- The marks of a view are those of its claims. -/
def Marked (v : NotesView) : Prop :=
  ∀ i : Fin v.nodes.length, v.mark[i] = true ↔ Connected v.nodes v.nodes[i]

/-- A view as its holder has it: never loaded, or loaded by any of the loads so far. -/
inductive Held : NotesView → Prop
  | blank : Held blankView
  | load {v : NotesView} (h : Held v) (st : NotesStore) (ops : ℕ) (stamp : Option UInt64)
      (d : NotesDisk) : Held (viewLoad st ops stamp v d).1.2

theorem mark_of_viewMark {nodes : List TreeNode} {mark : Vector Bool nodes.length}
    (h : viewMark nodes = .ok mark) (i : Fin nodes.length) :
    mark[i] = true ↔ Connected nodes nodes[i] := by
  unfold viewMark at h
  rw [if_pos (Nat.lt_of_le_of_lt (Nat.zero_le _) i.isLt)] at h
  rcases hreach : treeReachable nodes notesMax with err | ⟨mark', walk⟩
  · rw [hreach] at h
    cases h
  · rw [hreach] at h
    obtain rfl := Except.ok.inj h
    exact mark_of_treeReachable hreach i

section Load

variable {st : NotesStore} {ops : ℕ} {stamp : Option UInt64} {v : NotesView} {d : NotesDisk}

/-- A load answers with the view as it was, kept as loaded, with one it has marked, or with an
error and a view not kept. -/
theorem viewLoad_cases (st : NotesStore) (ops : ℕ) (stamp : Option UInt64) (v : NotesView)
    (d : NotesDisk) :
    (v.loadedFrom = some ops ∧ (viewLoad st ops stamp v d).1 = (.ok, v)) ∨
      Marked (viewLoad st ops stamp v d).1.2 ∨
      (viewLoad st ops stamp v d).1.1 ≠ .ok ∧ (viewLoad st ops stamp v d).1.2.loadedFrom = none := by
  unfold viewLoad
  split
  · next hkept => exact Or.inl ⟨hkept.2.1, rfl⟩
  split
  · exact Or.inr (Or.inr ⟨by simp, rfl⟩)
  split
  · exact Or.inr (Or.inr ⟨by simp, rfl⟩)
  split
  · exact Or.inr (Or.inr ⟨by simp, rfl⟩)
  · next hmark => exact Or.inr (Or.inl (mark_of_viewMark hmark))

theorem Held.marked (h : Held v) (hfrom : v.loadedFrom ≠ none) : Marked v := by
  induction h with
  | blank => exact absurd rfl hfrom
  | load _ st ops stamp d ih =>
    rcases viewLoad_cases st ops stamp _ d with ⟨hops, heq⟩ | hmarked | ⟨-, hnone⟩
    · rw [heq] at hfrom ⊢
      exact ih hfrom
    · exact hmarked
    · exact absurd hnone hfrom

/-- **A view loaded is marked.** -/
theorem Held.marked_of_load (h : Held v) (hok : (viewLoad st ops stamp v d).1.1 = .ok) :
    Marked (viewLoad st ops stamp v d).1.2 := by
  rcases viewLoad_cases st ops stamp v d with ⟨hops, heq⟩ | hmarked | ⟨hno, -⟩
  · rw [heq]
    exact h.marked (by rw [hops]; simp)
  · exact hmarked
  · exact absurd hok hno

end Load

/-! ## What is shown -/

section Shown

variable {v : NotesView} {cap : ℕ} {parent : Bytes32} {i : ℕ}

theorem mem_notesChildren (hroom : v.nodes.length ≤ cap) :
    i ∈ (notesChildren v parent cap).1 ↔
      ∃ node, v.nodes[i]? = some node ∧ node.parent = parent := by
  unfold notesChildren
  split_ifs with hnone
  · rw [List.length_eq_zero_iff.1 hnone]
    simp
  · exact mem_treeChildren hroom

theorem nodup_notesChildren (v : NotesView) (parent : Bytes32) (cap : ℕ) :
    (notesChildren v parent cap).1.Nodup := by
  unfold notesChildren
  split_ifs
  · exact List.nodup_nil
  · exact nodup_treeChildren _ _ _

theorem truncated_notesChildren (hroom : v.nodes.length ≤ cap) :
    (notesChildren v parent cap).2 = false := by
  unfold notesChildren
  split_ifs
  · rfl
  · exact truncated_treeChildren hroom

/-- The claims a scan has met that are not marked. -/
def unmarkedOf (v : NotesView) (looked : List (Fin v.nodes.length)) : List ℕ :=
  (looked.filter fun i => !v.mark[i]).map Fin.val

theorem mem_unmarkedOf {looked : List (Fin v.nodes.length)} :
    i ∈ unmarkedOf v looked ↔ ∃ j ∈ looked, v.mark[j] = false ∧ j.1 = i := by
  simp only [unmarkedOf, List.mem_map, List.mem_filter, Bool.not_eq_true', and_assoc]

/-- The root's children are marked, so a scan puts each claim at the top once. -/
theorem length_top_le (hmarked : Marked v) (hroom : v.nodes.length ≤ cap) :
    ((notesChildren v 0 cap).1 ++ unmarkedOf v (List.finRange v.nodes.length)).length ≤
      v.nodes.length := by
  have hnodup : ((notesChildren v 0 cap).1 ++
      unmarkedOf v (List.finRange v.nodes.length)).Nodup := by
    refine List.nodup_append.2 ⟨nodup_notesChildren v 0 cap, ?_, fun a ha b hb hab => ?_⟩
    · exact ((List.nodup_finRange _).filter _).map Fin.val_injective
    · obtain ⟨node, hat, hroot⟩ := (mem_notesChildren hroom).1 ha
      obtain ⟨j, -, hno, rfl⟩ := mem_unmarkedOf.1 hb
      obtain rfl : v.nodes[j] = node := by
        rw [hab, List.getElem?_eq_getElem j.isLt] at hat
        exact Option.some.inj hat
      have hyes := (hmarked j).2 (.start ⟨List.getElem_mem j.isLt, hroot⟩)
      exact absurd (hyes.symm.trans hno) (by decide)
  have hsub : (notesChildren v 0 cap).1 ++ unmarkedOf v (List.finRange v.nodes.length) ⊆
      List.range v.nodes.length := by
    intro a ha
    rw [List.mem_range]
    rcases List.mem_append.1 ha with ha | ha
    · obtain ⟨node, hat, -⟩ := (mem_notesChildren hroom).1 ha
      exact (List.getElem?_eq_some_iff.1 hat).1
    · obtain ⟨j, -, -, rfl⟩ := mem_unmarkedOf.1 ha
      exact j.isLt
  have hle := (hnodup.subperm hsub).length_le
  rwa [List.length_range] at hle

/-- **With room for all, the top is the root's children and every claim not marked.** -/
theorem notesTopLevel_eq (hmarked : Marked v) (hroom : v.nodes.length ≤ cap) :
    notesTopLevel v cap =
      ((notesChildren v 0 cap).1 ++ unmarkedOf v (List.finRange v.nodes.length), false) := by
  have hlen := length_top_le hmarked hroom
  unfold notesTopLevel
  refine prefix_induction (P := fun pre => pre.foldl (topTurn v cap) (notesChildren v 0 cap) =
    ((notesChildren v 0 cap).1 ++ unmarkedOf v pre, false)) ?_ fun pre i hle ih => ?_
  · rw [List.foldl_nil, unmarkedOf, List.filter_nil, List.map_nil, List.append_nil]
    exact Prod.ext rfl (truncated_notesChildren hroom)
  · have hpre : (unmarkedOf v (pre ++ [i])).length ≤
        (unmarkedOf v (List.finRange v.nodes.length)).length :=
      ((hle.filter _).map _).length_le
    rw [List.foldl_append, ih, List.foldl_cons, List.foldl_nil]
    unfold topTurn
    rw [if_neg (by simp)]
    by_cases hmark : v.mark[i] = true
    · rw [if_pos hmark, unmarkedOf, unmarkedOf, List.filter_append,
        List.filter_cons_of_neg (by simpa using hmark), List.filter_nil, List.append_nil]
    · have happend : unmarkedOf v (pre ++ [i]) = unmarkedOf v pre ++ [i.1] := by
        rw [unmarkedOf, List.filter_append, List.filter_cons_of_pos (by simpa using hmark),
          List.filter_nil, List.map_append, List.map_singleton, unmarkedOf]
      rw [happend, List.length_append, List.length_singleton] at hpre
      rw [List.length_append] at hlen
      rw [if_neg hmark, if_neg (by rw [List.length_append]; omega), happend, List.append_assoc]

/-- **A claim is shown** at the top, or under the note of a claim that is shown. -/
def Shown (v : NotesView) (cap : ℕ) : ℕ → Prop :=
  Reach (fun i => i ∈ (notesTopLevel v cap).1)
    fun p i => ∃ node, v.nodes[p]? = some node ∧ i ∈ (notesChildren v node.id cap).1

/-- **Every claim is shown**: one that is connected below what it hangs from, and one that is
not at the top. -/
theorem shown_of_marked (hmarked : Marked v) (hroom : v.nodes.length ≤ cap)
    (i : Fin v.nodes.length) : Shown v cap i := by
  by_cases hmark : v.mark[i] = true
  · have hall := Reach.mem (S := fun node => node ∈ v.nodes ∧ ∀ j : Fin v.nodes.length,
      v.nodes[j] = node → Shown v cap j) ?_ ?_ ((hmarked i).1 hmark)
    · exact hall.2 i rfl
    · rintro node ⟨hin, hroot⟩
      refine ⟨hin, fun j hj => .start ?_⟩
      rw [notesTopLevel_eq hmarked hroom]
      refine List.mem_append_left _ ((mem_notesChildren hroom).2 ⟨node, ?_, hroot⟩)
      rw [← hj]
      exact List.getElem?_eq_getElem j.isLt
    · rintro up node ⟨hup, hshown⟩ ⟨hin, hid⟩
      refine ⟨hin, fun j hj => ?_⟩
      obtain ⟨k, hk, hkup⟩ := List.getElem_of_mem hup
      refine .link (hshown ⟨k, hk⟩ hkup) ⟨up, ?_, (mem_notesChildren hroom).2 ⟨node, ?_, hid.symm⟩⟩
      · rw [← hkup]
        exact List.getElem?_eq_getElem hk
      · rw [← hj]
        exact List.getElem?_eq_getElem j.isLt
  · refine .start ?_
    rw [notesTopLevel_eq hmarked hroom]
    exact List.mem_append_right _ (mem_unmarkedOf.2
      ⟨i, List.mem_finRange i, Bool.eq_false_of_not_eq_true hmark, rfl⟩)

end Shown

/-- **No note vanishes.**  The marks come, after a number of looks at the claims that their
count bounds, to be on what is connected to the root, wherever the parents lead; they go with
the claims where these are listed in another order; and every claim of a view that was loaded
is shown where the output has room for the view. -/
theorem no_note_vanishes :
    (∀ (nodes : List TreeNode) (markCap : ℕ), nodes.length ≤ markCap →
      ∃ mark walk, treeReachable nodes markCap = .ok (mark, walk) ∧
        walk.examined ≤ nodes.length * (nodes.length + 1) ∧
        ∀ i : Fin nodes.length, mark[i] = true ↔ Connected nodes nodes[i]) ∧
    (∀ (nodes nodes' : List TreeNode) (σ : Fin nodes'.length ≃ Fin nodes.length) (markCap : ℕ)
      (mark : Vector Bool nodes.length) (mark' : Vector Bool nodes'.length)
      (walk walk' : TreeWalk), (∀ i, nodes'[i] = nodes[σ i]) →
      treeReachable nodes markCap = .ok (mark, walk) →
      treeReachable nodes' markCap = .ok (mark', walk') → ∀ i, mark'[i] = mark[σ i]) ∧
    (∀ (st : NotesStore) (ops : ℕ) (stamp : Option UInt64) (v : NotesView) (d : NotesDisk),
      Held v → (viewLoad st ops stamp v d).1.1 = .ok →
      ∀ cap, (viewLoad st ops stamp v d).1.2.nodes.length ≤ cap →
      ∀ i < (viewLoad st ops stamp v d).1.2.nodes.length,
        Shown (viewLoad st ops stamp v d).1.2 cap i) := by
  refine ⟨fun nodes markCap h => treeReachable_mark h, ?_, ?_⟩
  · intro nodes nodes' σ markCap mark mark' walk walk' hperm hmark hmark' i
    have hmem : ∀ node, node ∈ nodes' ↔ node ∈ nodes := by
      intro node
      constructor
      · intro hin
        obtain ⟨j, hj, rfl⟩ := List.getElem_of_mem hin
        exact hperm ⟨j, hj⟩ ▸ List.getElem_mem _
      · intro hin
        obtain ⟨j, hj, rfl⟩ := List.getElem_of_mem hin
        have hback := hperm (σ.symm ⟨j, hj⟩)
        simp only [Equiv.apply_symm_apply] at hback
        exact hback ▸ List.getElem_mem _
    rw [Bool.eq_iff_iff, mark_of_treeReachable hmark', mark_of_treeReachable hmark, hperm i]
    exact connected_congr hmem
  · intro st ops stamp v d hheld hok cap hroom i hi
    exact shown_of_marked (hheld.marked_of_load hok) hroom ⟨i, hi⟩

/-! ## Two notes, each under the other -/

/-- A note's first record of an issuer that places it, without content. -/
def placedNote (id issuer parent order : ℕ) : Bytes :=
  [1, 130] ++ putBe 32 issuer ++ putBe 32 id ++ putBe 4 0 ++ putBe 4 noteKind ++ putBe 8 1 ++
    putBe 32 0 ++ putBe 8 0 ++ putBe 2 42 ++
    (putBe 32 parent ++ putBe 8 order ++ putBe 2 0) ++ putBe 64 9

/-- A store that files a claim under its issuer. -/
def issuerStore : NotesStore := ⟨tailHash, true, 0, fun _ => none, false, false⟩

/-- The notes 5 and 6, each under the other. -/
def cycleDisk : NotesDisk :=
  ⟨(AList.insert (.note, 2) (noteBlob (placedNote 6 2 5 0))
    (AList.insert (.note, 1) (noteBlob (placedNote 5 1 6 0)) ∅)), []⟩

/-- Neither note of a cycle vanishes. -/
theorem no_note_vanishes_cycle :
    (viewLoad issuerStore 0 none blankView cycleDisk).1.2.nodes.length = 2 ∧
      ∀ i < 2, Shown (viewLoad issuerStore 0 none blankView cycleDisk).1.2 2 i := by
  have hlen : (viewLoad issuerStore 0 none blankView cycleDisk).1.2.nodes.length = 2 := by
    decide +kernel
  have hok : (viewLoad issuerStore 0 none blankView cycleDisk).1.1 = .ok := by decide +kernel
  have hshown := no_note_vanishes.2.2 issuerStore 0 none blankView cycleDisk .blank hok 2
    (Nat.le_of_eq hlen)
  refine ⟨hlen, fun i hi => hshown i ?_⟩
  rw [hlen]
  exact hi

/-! ## Where a note goes -/

/-- `FIRST_ORDER`. -/
def firstOrder : UInt64 := 1000

/-- One turn of the loop of `order_after`. -/
def highTurn (parent : Bytes32) (id : Option Bytes32) (high : Option UInt64) (node : TreeNode) :
    Option UInt64 :=
  if node.parent ≠ parent then high
  else if id = some node.id then high
  else match high with
    | none => some node.order
    | some h => if node.order > h then some node.order else some h

/-- `order_after`; with no `id`, after every claim. -/
def orderAfter (nodes : List TreeNode) (parent : Bytes32) (id : Option Bytes32) :
    Except NotesErr UInt64 :=
  match nodes.foldl (highTurn parent id) none with
  | none => .ok firstOrder
  | some high => match treeOrderBetween high 0xffffffffffffffff with
    | .error _ => .error .malformed
    | .ok (_, order) => .ok order

/-- One turn of a loop of `above`: a claim on the note `up` not seen yet is pushed. -/
def pushTurn (nodes : List TreeNode) (up : Bytes32)
    (s : List (Fin nodes.length) × Vector Bool nodes.length) (k : Fin nodes.length) :
    List (Fin nodes.length) × Vector Bool nodes.length :=
  if s.2[k] = false ∧ nodes[k].id = up then (k :: s.1, s.2.set k true) else s

/-- The claims on a note pushed. -/
def pushClaims (nodes : List TreeNode) (up : Bytes32)
    (s : List (Fin nodes.length) × Vector Bool nodes.length) :
    List (Fin nodes.length) × Vector Bool nodes.length :=
  (List.finRange nodes.length).foldl (pushTurn nodes up) s

/-- The walk of `above`. -/
def aboveLoop (nodes : List TreeNode) (id : Bytes32) :
    ℕ → List (Fin nodes.length) × Vector Bool nodes.length → Option Bool
  | 0, _ => none
  | _ + 1, ([], _) => some false
  | fuel + 1, (i :: stack, seen) =>
    if nodes[i].parent = id then some true
    else if treeIsRoot nodes[i].parent then aboveLoop nodes id fuel (stack, seen)
    else aboveLoop nodes id fuel (pushClaims nodes nodes[i].parent (stack, seen))

/-- `above`: each claim is walked once, so a turn more than there are claims ends the walk
(`aboveLoop_ends`). -/
def above (nodes : List TreeNode) (id at' : Bytes32) : Bool :=
  if id = at' then true
  else (aboveLoop nodes id (nodes.length + 1)
    (pushClaims nodes at' ([], Vector.replicate nodes.length false))).getD false

/-! ## Last under the parent -/

section Order

variable {nodes : List TreeNode} {parent : Bytes32} {id : Option Bytes32} {node : TreeNode}

theorem highTurn_self (high : Option UInt64) (hparent : node.parent = parent)
    (hother : id ≠ some node.id) :
    ∃ h, highTurn parent id high node = some h ∧ node.order ≤ h := by
  unfold highTurn
  rw [if_neg (not_not.2 hparent), if_neg hother]
  cases high with
  | none => exact ⟨node.order, rfl, UInt64.le_refl _⟩
  | some h =>
    show ∃ h', (if node.order > h then some node.order else some h) = some h' ∧ _
    split_ifs with hlt
    · exact ⟨node.order, rfl, UInt64.le_refl _⟩
    · exact ⟨h, rfl, UInt64.not_lt.1 hlt⟩

theorem highTurn_mono (parent : Bytes32) (id : Option Bytes32) (h : UInt64) (node : TreeNode) :
    ∃ h', highTurn parent id (some h) node = some h' ∧ h ≤ h' := by
  unfold highTurn
  split_ifs with hparent hother
  · exact ⟨h, rfl, UInt64.le_refl _⟩
  · exact ⟨h, rfl, UInt64.le_refl _⟩
  · show ∃ h', (if node.order > h then some node.order else some h) = some h' ∧ _
    split_ifs with hlt
    · exact ⟨node.order, rfl, UInt64.le_of_lt hlt⟩
    · exact ⟨h, rfl, UInt64.le_refl _⟩

/-- No claim under the parent is above the highest. -/
theorem le_highest (hin : node ∈ nodes) (hparent : node.parent = parent)
    (hother : id ≠ some node.id) :
    ∃ h, nodes.foldl (highTurn parent id) none = some h ∧ node.order ≤ h := by
  induction nodes using List.reverseRecOn with
  | nil => exact absurd hin List.not_mem_nil
  | append_singleton nodes last ih =>
    rw [List.foldl_append, List.foldl_cons, List.foldl_nil]
    rcases List.mem_append.1 hin with hin | hin
    · obtain ⟨h, hfold, hle⟩ := ih hin
      obtain ⟨h', hturn, hle'⟩ := highTurn_mono parent id h last
      exact ⟨h', by rw [hfold, hturn], UInt64.le_trans hle hle'⟩
    · obtain rfl := List.mem_singleton.1 hin
      exact highTurn_self _ hparent hother

/-- Behind another claim in sibling order, or a tie at the end of the range. -/
def Behind (other node : TreeNode) : Prop :=
  treeCmp other node = .lt ∨ (other.order = node.order ∧ 2 ^ 64 - 2 ≤ node.order.toNat)

theorem treeCmp_lt {a b : TreeNode} :
    treeCmp a b = .lt ↔ a.order < b.order ∨ a.order = b.order ∧ a.id < b.id := by
  unfold treeCmp
  by_cases hlt : a.order < b.order
  · rw [if_pos hlt]
    exact ⟨fun _ => Or.inl hlt, fun _ => rfl⟩
  rw [if_neg hlt]
  by_cases hgt : a.order > b.order
  · rw [if_pos hgt]
    refine ⟨fun h => (by cases h), fun h => ?_⟩
    rcases h with h | h
    · exact absurd h hlt
    · exact absurd hgt (by rw [h.1]; exact UInt64.lt_irrefl _)
  rw [if_neg hgt]
  have heq := UInt64.le_antisymm (UInt64.not_lt.1 hgt) (UInt64.not_lt.1 hlt)
  by_cases hid : a.id < b.id
  · rw [if_pos hid]
    exact ⟨fun _ => Or.inr ⟨heq, hid⟩, fun _ => rfl⟩
  · rw [if_neg hid]
    refine ⟨fun h => ?_, fun h => ?_⟩
    · split at h <;> cases h
    · exact absurd (h.resolve_left hlt).2 hid

/-- Behind each other in turn, the first is behind the last. -/
theorem Behind.trans {a b c : TreeNode} (h : Behind a b) (h' : Behind b c) : Behind a c := by
  have hle : ∀ {x y : TreeNode}, Behind x y → x.order ≤ y.order := by
    rintro x y (hlt | heq)
    · rcases treeCmp_lt.1 hlt with hlt | heq
      · exact UInt64.le_of_lt hlt
      · exact UInt64.le_of_eq heq.1
    · exact UInt64.le_of_eq heq.1
  rcases UInt64.lt_or_eq_of_le (UInt64.le_trans (hle h) (hle h')) with hlt | heq
  · exact Or.inl (treeCmp_lt.2 (Or.inl hlt))
  have hab : a.order = b.order := UInt64.le_antisymm (hle h) (heq ▸ hle h')
  have hbc : b.order = c.order := hab.symm.trans heq
  rcases h with hlt | hend
  · rcases h' with hlt' | hend'
    · rcases treeCmp_lt.1 hlt with hno | hid
      · exact absurd hno (by rw [hab]; exact UInt64.lt_irrefl _)
      rcases treeCmp_lt.1 hlt' with hno | hid'
      · exact absurd hno (by rw [hbc]; exact UInt64.lt_irrefl _)
      exact Or.inl (treeCmp_lt.2 (Or.inr ⟨heq, BitVec.lt_trans hid.2 hid'.2⟩))
    · exact Or.inr ⟨heq, hend'.2⟩
  · exact Or.inr ⟨heq, hbc ▸ hend.2⟩

/-- Half way to the end of the range is above, but at its last two keys. -/
theorem order_lt_or_end {order high : UInt64} (hle : order ≤ high) :
    order < high + (0xffffffffffffffff - high) / 2 ∨
      (order = high + (0xffffffffffffffff - high) / 2 ∧
        2 ^ 64 - 2 ≤ (high + (0xffffffffffffffff - high) / 2).toNat) := by
  have hbound := high.toNat_lt
  have hend : (0xffffffffffffffff : UInt64).toNat = 2 ^ 64 - 1 := rfl
  have hsub : (0xffffffffffffffff - high).toNat = 2 ^ 64 - 1 - high.toNat := by
    rw [UInt64.toNat_sub_of_le _ _ (UInt64.le_iff_toNat_le.2 (by rw [hend]; omega)), hend]
  have hhalf : (high + (0xffffffffffffffff - high) / 2).toNat =
      high.toNat + (2 ^ 64 - 1 - high.toNat) / 2 := by
    rw [UInt64.toNat_add, UInt64.toNat_div, hsub, show (2 : UInt64).toNat = 2 from rfl,
      Nat.mod_eq_of_lt (by omega)]
  have hle' := UInt64.le_iff_toNat_le.1 hle
  rw [UInt64.lt_iff_toNat_lt, ← UInt64.toNat_inj, hhalf]
  omega

/-- **A note goes behind the claims its parent has**, those on `id` aside. -/
theorem orderAfter_last {order : UInt64} (h : orderAfter nodes parent id = .ok order)
    (hin : node ∈ nodes) (hparent : node.parent = parent) (hother : id ≠ some node.id)
    {new : TreeNode} (hnew : new.order = order) : Behind node new := by
  obtain ⟨high, hfold, hle⟩ := le_highest hin hparent hother
  have hroom : ¬ high > 0xffffffffffffffff := by
    rw [gt_iff_lt, UInt64.not_lt, UInt64.le_iff_toNat_le]
    exact Nat.le_sub_one_of_lt high.toNat_lt
  have hkey : high + (0xffffffffffffffff - high) / 2 = order := by
    unfold orderAfter at h
    rw [hfold] at h
    dsimp only at h
    unfold treeOrderBetween at h
    rw [if_neg hroom] at h
    exact Except.ok.inj h
  rcases order_lt_or_end hle with hlt | ⟨heq, hend⟩
  · left
    unfold treeCmp
    rw [hnew, ← hkey, if_pos hlt]
  · right
    rw [hnew, ← hkey]
    exact ⟨heq, hend⟩

end Order

/-! ## The way up -/

/-- The claims on the way up from a note: those on it, and those on the parent of one that is
not the root. -/
def UpFrom (nodes : List TreeNode) (at' : Bytes32) : TreeNode → Prop :=
  Reach (fun claim => claim ∈ nodes ∧ claim.id = at') fun claim up =>
    up ∈ nodes ∧ up.id = claim.parent ∧ claim.parent ≠ 0

section Above

variable {nodes : List TreeNode} {id up at' : Bytes32}
  {s : List (Fin nodes.length) × Vector Bool nodes.length}

theorem pushTurn_size (k : Fin nodes.length) :
    (pushTurn nodes up s k).1.length + (pushTurn nodes up s k).2.count false =
      s.1.length + s.2.count false := by
  unfold pushTurn
  split_ifs with hpush
  · have hcount := count_set_true hpush.1
    show (k :: s.1).length + (s.2.set k true).count false = _
    rw [List.length_cons]
    omega
  · rfl

/-- A claim pushed is one fewer to see. -/
theorem pushClaims_size (up : Bytes32) (s : List (Fin nodes.length) × Vector Bool nodes.length) :
    (pushClaims nodes up s).1.length + (pushClaims nodes up s).2.count false =
      s.1.length + s.2.count false :=
  foldl_induction (P := fun t : List (Fin nodes.length) × Vector Bool nodes.length =>
      t.1.length + t.2.count false = s.1.length + s.2.count false)
    (fun _ k _ ih => (pushTurn_size k).trans ih) rfl

/-- **The walk ends**: a turn takes one claim off, and each is pushed once. -/
theorem aboveLoop_ends (id : Bytes32) {fuel : ℕ} (h : s.1.length + s.2.count false < fuel) :
    ∃ answer, aboveLoop nodes id fuel s = some answer := by
  induction fuel generalizing s with
  | zero => exact absurd h (Nat.not_lt_zero _)
  | succ fuel ih =>
    obtain ⟨_ | ⟨i, stack⟩, seen⟩ := s
    · exact ⟨false, rfl⟩
    · rw [aboveLoop]
      change stack.length + 1 + seen.count false < fuel + 1 at h
      split_ifs
      · exact ⟨true, rfl⟩
      · refine ih ?_
        show stack.length + seen.count false < fuel
        omega
      · refine ih ?_
        rw [pushClaims_size]
        show stack.length + seen.count false < fuel
        omega

/-- What a push adds: the claims on `up` are seen then, and what is newly seen is to walk. -/
structure Pushed (nodes : List TreeNode) (up : Bytes32)
    (s t : List (Fin nodes.length) × Vector Bool nodes.length) (looked : List (Fin nodes.length)) :
    Prop where
  seen : ∀ k : Fin nodes.length, s.2[k] = true → t.2[k] = true
  stack : ∀ k ∈ s.1, k ∈ t.1
  new : ∀ k : Fin nodes.length, t.2[k] = true → s.2[k] = true ∨ k ∈ t.1
  all : ∀ k ∈ looked, nodes[k].id = up → t.2[k] = true

theorem Pushed.turn {t : List (Fin nodes.length) × Vector Bool nodes.length}
    {looked : List (Fin nodes.length)} (h : Pushed nodes up s t looked) (k : Fin nodes.length) :
    Pushed nodes up s (pushTurn nodes up t k) (looked ++ [k]) := by
  unfold pushTurn
  split_ifs with hpush
  · have hset : ∀ j : Fin nodes.length, (t.2.set k true)[j] = true ↔ j = k ∨ t.2[j] = true := by
      intro j
      by_cases hjk : j = k
      · subst hjk
        simp
      · rw [Fin.getElem_fin, Vector.getElem_set_ne _ _ fun heq => hjk (Fin.ext heq.symm)]
        exact ⟨Or.inr, fun hor => hor.resolve_left hjk⟩
    refine ⟨fun j hj => (hset j).2 (Or.inr (h.seen j hj)), fun j hj =>
      List.mem_cons_of_mem k (h.stack j hj), fun j hj => ?_, fun j hj hid => ?_⟩
    · rcases (hset j).1 hj with rfl | hj
      · exact Or.inr List.mem_cons_self
      · exact (h.new j hj).imp_right (List.mem_cons_of_mem k)
    · rcases List.mem_append.1 hj with hj | hj
      · exact (hset j).2 (Or.inr (h.all j hj hid))
      · exact (hset j).2 (Or.inl (List.mem_singleton.1 hj))
  · refine ⟨h.seen, h.stack, h.new, fun j hj hid => ?_⟩
    rcases List.mem_append.1 hj with hj | hj
    · exact h.all j hj hid
    · obtain rfl := List.mem_singleton.1 hj
      exact Bool.eq_true_of_not_eq_false fun hno => hpush ⟨hno, hid⟩

theorem pushed (up : Bytes32) (s : List (Fin nodes.length) × Vector Bool nodes.length) :
    Pushed nodes up s (pushClaims nodes up s) (List.finRange nodes.length) := by
  unfold pushClaims
  refine prefix_induction (P := fun pre => Pushed nodes up s
    (pre.foldl (pushTurn nodes up) s) pre) ?_ fun pre k _ ih => ?_
  · exact ⟨fun _ h => h, fun _ h => h, fun _ h => Or.inl h, fun _ h => absurd h List.not_mem_nil⟩
  · rw [List.foldl_append]
    exact ih.turn k

/-- How far a walk up is: every claim seen is still to walk, or it does not name the note and
the claims on its parent are seen. -/
structure Climbed (nodes : List TreeNode) (id at' : Bytes32)
    (s : List (Fin nodes.length) × Vector Bool nodes.length) : Prop where
  begun : ∀ k : Fin nodes.length, nodes[k].id = at' → s.2[k] = true
  walked : ∀ i : Fin nodes.length, s.2[i] = true → i ∈ s.1 ∨ nodes[i].parent ≠ id ∧
    (nodes[i].parent ≠ 0 → ∀ k : Fin nodes.length, nodes[k].id = nodes[i].parent → s.2[k] = true)

/-- A walk that answers no has walked everything it saw. -/
theorem Climbed.done {fuel : ℕ} (h : Climbed nodes id at' s)
    (hno : aboveLoop nodes id fuel s = some false) : ∃ seen, Climbed nodes id at' ([], seen) := by
  induction fuel generalizing s with
  | zero => cases hno
  | succ fuel ih =>
    obtain ⟨_ | ⟨i, stack⟩, seen⟩ := s
    · exact ⟨seen, h⟩
    rw [aboveLoop] at hno
    split_ifs at hno with hid hroot
    · cases hno
    · refine ih (s := (stack, seen)) ⟨h.begun, fun j hj => ?_⟩ hno
      rcases h.walked j hj with hin | hin
      · rcases List.mem_cons.1 hin with rfl | hin
        · exact Or.inr ⟨hid, fun hnot => absurd (of_decide_eq_true hroot) hnot⟩
        · exact Or.inl hin
      · exact Or.inr hin
    · have hpushed := pushed nodes[i].parent (stack, seen)
      refine ih ⟨fun k hk => hpushed.seen k (h.begun k hk), fun j hj => ?_⟩ hno
      rcases hpushed.new j hj with hj | hj
      · rcases h.walked j hj with hin | ⟨hne, hall⟩
        · rcases List.mem_cons.1 hin with rfl | hin
          · exact Or.inr ⟨hid, fun _ k hk => hpushed.all k (List.mem_finRange k) hk⟩
          · exact Or.inl (hpushed.stack j hin)
        · exact Or.inr ⟨hne, fun hnot k hk => hpushed.seen k (hall hnot k hk)⟩
      · exact Or.inl hj

/-- **Where the walk does not come to the note, no claim on the way up names it.** -/
theorem above_false (h : above nodes id at' = false) :
    id ≠ at' ∧ ∀ claim, UpFrom nodes at' claim → claim.parent ≠ id := by
  unfold above at h
  split_ifs at h with hid
  refine ⟨hid, fun claim hup => ?_⟩
  have hstart := pushed at' (([], Vector.replicate nodes.length false) :
    List (Fin nodes.length) × Vector Bool nodes.length)
  have hsize := pushClaims_size at' (([], Vector.replicate nodes.length false) :
    List (Fin nodes.length) × Vector Bool nodes.length)
  rw [Vector.count_replicate_self, List.length_nil, Nat.zero_add] at hsize
  obtain ⟨answer, hanswer⟩ := aboveLoop_ends id
    (Nat.lt_succ_of_le (Nat.le_of_eq hsize))
  rw [Nat.succ_eq_add_one] at hanswer
  rw [hanswer, Option.getD_some] at h
  subst h
  have hbegun : Climbed nodes id at'
      (pushClaims nodes at' ([], Vector.replicate nodes.length false)) :=
    ⟨fun k hk => hstart.all k (List.mem_finRange k) hk,
      fun i hi => Or.inl ((hstart.new i hi).resolve_left (by
        rw [Fin.getElem_fin, Vector.getElem_replicate]
        exact Bool.false_ne_true))⟩
  obtain ⟨seen, hdone⟩ := hbegun.done hanswer
  have hall := Reach.mem (S := fun claim => claim ∈ nodes ∧ ∀ k : Fin nodes.length,
    nodes[k] = claim → seen[k] = true) ?_ ?_ hup
  · obtain ⟨k, hk, rfl⟩ := List.getElem_of_mem hall.1
    rcases hdone.walked ⟨k, hk⟩ (hall.2 ⟨k, hk⟩ rfl) with hin | hne
    · exact absurd hin List.not_mem_nil
    · exact hne.1
  · rintro claim ⟨hin, rfl⟩
    exact ⟨hin, fun k hk => hdone.begun k (congrArg TreeNode.id hk)⟩
  · rintro claim up ⟨hclaim, hseen⟩ ⟨hin, hup, hroot⟩
    refine ⟨hin, fun k hk => ?_⟩
    obtain ⟨j, hj, rfl⟩ := List.getElem_of_mem hclaim
    rcases hdone.walked ⟨j, hj⟩ (hseen ⟨j, hj⟩ rfl) with hin | hne
    · exact absurd hin List.not_mem_nil
    · exact hne.2 hroot k (by rw [hk]; exact hup)

end Above

end Notes
end Fuzznet
