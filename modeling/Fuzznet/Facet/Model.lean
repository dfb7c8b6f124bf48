/-
# Facet expressions

`facet/facet.h` and `facet/facet.c`: terms and expressions, `fzn_facet_term_eq`,
`fzn_facet_validate` and `fzn_facet_normalize`.  A term is a node, a range of a node's
children or an alternation of nodes, and an expression is the terms asked for and the terms
taken away.

A term has a meaning that its spelling does not touch: what is in a field its kind does not
use, how many times a member stands in an alternation and where, which number says that a
bound is inclusive.  Terms that `fzn_facet_term_eq` calls equal mean the same
(`meaning_of_termEq`), and normalising leaves the meanings there were (`meanings_normalizeSide`).
An array is a list; a bound without an `id` is one whose `id` is NULL.
-/

import Mathlib.Data.Finset.Dedup
import Mathlib.Data.List.Induction
import Fuzznet.Wire.Bytes

namespace Fuzznet
namespace Facet

open Wire

/-- `fzn_facet_err_t`, the errors of this much of it. -/
inductive Err
  | malformed
  | emptyPos
  | altDimension
  | bothSides
  | kind
  | range
  deriving DecidableEq, Repr

/-- `FZN_FACET_PREFIX`. -/
def kindPrefix : ℕ := 1

/-- `FZN_FACET_RANGE`. -/
def kindRange : ℕ := 2

/-- `FZN_FACET_ALT`. -/
def kindAlt : ℕ := 3

/-- `fzn_facet_node_t`. -/
structure Node where
  dim : Bytes
  id : Bytes
  deriving DecidableEq, Repr

/-- `fzn_facet_bound_t`. -/
structure Bound where
  id : Option Bytes
  inclusive : ℤ
  deriving DecidableEq, Repr

/-- `fzn_facet_term_t`. -/
structure Term where
  kind : ℕ
  node : Node
  lo : Bound
  hi : Bound
  members : List Node
  deriving DecidableEq, Repr

/-- `fzn_facet_expr_t`. -/
structure Expr where
  pos : List Term
  neg : List Term
  deriving DecidableEq, Repr

/-! ## Equality -/

/-- `bound_open`. -/
def boundOpen (b : Bound) : Bool :=
  match b.id with
  | none => true
  | some id => id.length == 0

/-- `bound_eq`. -/
def boundEq (a b : Bound) : Bool :=
  if boundOpen a || boundOpen b then boundOpen a && boundOpen b
  else decide (a.id = b.id) && (decide (a.inclusive = 0) == decide (b.inclusive = 0))

/-- `alt_members_eq`. -/
def altMembersEq (a b : Term) : Bool :=
  decide (a.members.length = b.members.length) &&
    (a.members.all fun m => decide (m ∈ b.members)) &&
    b.members.all fun m => decide (m ∈ a.members)

/-- `fzn_facet_term_eq`. -/
def termEq (a b : Term) : Bool :=
  if a.kind ≠ b.kind then false
  else if a.kind = kindPrefix then decide (a.node = b.node)
  else if a.kind = kindRange then
    decide (a.node = b.node) && boundEq a.lo b.lo && boundEq a.hi b.hi
  else if a.kind = kindAlt then altMembersEq a b
  else false

/-! ## Validity -/

/-- `check_alt`. -/
def checkAlt (t : Term) : Except Err Unit :=
  match t.members with
  | [] => .error .malformed
  | m :: ms => if ms.all fun n => decide (n.dim = m.dim) then .ok () else .error .altDimension

/-- `check_side`. -/
def checkSide : List Term → Except Err Unit
  | [] => .ok ()
  | t :: ts =>
    if t.kind = kindPrefix ∨ t.kind = kindRange then checkSide ts
    else if t.kind = kindAlt then do
      checkAlt t
      checkSide ts
    else .error .kind

/-- `fzn_facet_validate`. -/
def validate (e : Expr) : Except Err Unit :=
  if e.pos.length = 0 then .error .emptyPos
  else do
    checkSide e.pos
    checkSide e.neg
    if e.pos.any fun p => e.neg.any (termEq p) then .error .bothSides else .ok ()

/-! ## Normal form -/

/-- An alternation of one member, as a node. -/
def collapse (t : Term) : Term :=
  match t.members with
  | [m] => if t.kind = kindAlt then { t with kind := kindPrefix, node := m, members := [] } else t
  | _ => t

/-- The terms none before is equal to. -/
def dropRepeats (ts : List Term) : List Term :=
  ts.foldl (fun kept t => if kept.any (termEq t) then kept else kept ++ [t]) []

/-- `normalize_side`. -/
def normalizeSide (ts : List Term) : List Term :=
  dropRepeats (ts.map collapse)

/-- `fzn_facet_normalize`. -/
def normalize (e : Expr) : Expr :=
  ⟨normalizeSide e.pos, normalizeSide e.neg⟩

/-! ## Meaning -/

/-- What a term says, however it is spelt. -/
inductive Meaning
  | beneath (node : Node)
  | span (node : Node) (lo hi : Option (Bytes × Bool))
  | union (members : Finset Node)
  deriving DecidableEq

/-- What a bound says: nothing when it is open. -/
def Bound.meaning (b : Bound) : Option (Bytes × Bool) :=
  if boundOpen b then none else b.id.map fun id => (id, decide (b.inclusive ≠ 0))

/-- What an alternation says: of one member, what the member does. -/
def altMeaning (members : List Node) : Meaning :=
  match members.dedup with
  | [m] => .beneath m
  | _ => .union members.toFinset

/-- What a term says. -/
def Term.meaning (t : Term) : Meaning :=
  if t.kind = kindPrefix then .beneath t.node
  else if t.kind = kindRange then .span t.node t.lo.meaning t.hi.meaning
  else altMeaning t.members

/-- What the terms of a side say. -/
def meanings (ts : List Term) : Set Meaning :=
  {m | ∃ t ∈ ts, t.meaning = m}

variable {a b : Bound} {t u : Term} {ts : List Term}

theorem boundEq_iff : boundEq a b = true ↔ a.meaning = b.meaning := by
  obtain ⟨_ | _ | ⟨x, xs⟩, i⟩ := a <;> obtain ⟨_ | _ | ⟨y, ys⟩, j⟩ := b <;>
    simp [boundEq, boundOpen, Bound.meaning]

theorem altMeaning_congr {ms ns : List Node} (h : ms.toFinset = ns.toFinset) :
    altMeaning ms = altMeaning ns := by
  have hperm : ms.dedup.Perm ns.dedup := by
    refine (List.perm_ext_iff_of_nodup ms.nodup_dedup ns.nodup_dedup).2 fun m => ?_
    rw [List.mem_dedup, List.mem_dedup, ← List.mem_toFinset, h, List.mem_toFinset]
  rw [altMeaning, altMeaning, h]
  split
  next m hm =>
    rw [hm] at hperm
    simp only [← List.singleton_perm.1 hperm]
  next hm =>
    split
    next n hn =>
      rw [hn] at hperm
      exact absurd (List.perm_singleton.1 hperm) (hm n)
    · rfl

/-- **Terms called equal mean the same.** -/
theorem meaning_of_termEq (h : termEq t u = true) : t.meaning = u.meaning := by
  rw [termEq] at h
  split_ifs at h with hkind hpfx hrange halt
  · rw [Term.meaning, Term.meaning, ← not_not.1 hkind, if_pos hpfx, if_pos hpfx,
      of_decide_eq_true h]
  · rw [Bool.and_eq_true, Bool.and_eq_true, boundEq_iff, boundEq_iff] at h
    rw [Term.meaning, Term.meaning, ← not_not.1 hkind, if_neg hpfx, if_neg hpfx, if_pos hrange,
      if_pos hrange, of_decide_eq_true h.1.1, h.1.2, h.2]
  · rw [Term.meaning, Term.meaning, ← not_not.1 hkind, if_neg hpfx, if_neg hpfx, if_neg hrange,
      if_neg hrange]
    refine altMeaning_congr (Finset.ext fun m => ?_)
    simp only [altMembersEq, Bool.and_eq_true, List.all_eq_true, decide_eq_true_eq] at h
    rw [List.mem_toFinset, List.mem_toFinset]
    exact ⟨h.1.2 m, h.2 m⟩

@[simp] theorem meaning_collapse (t : Term) : (collapse t).meaning = t.meaning := by
  rw [collapse]
  split
  next m hm =>
    split_ifs with halt
    · simp [Term.meaning, altMeaning, halt, hm, kindPrefix, kindRange, kindAlt]
    · rfl
  · rfl

theorem dropRepeats_concat (ts : List Term) (t : Term) :
    dropRepeats (ts ++ [t]) =
      if (dropRepeats ts).any (termEq t) then dropRepeats ts else dropRepeats ts ++ [t] := by
  rw [dropRepeats, List.foldl_append, List.foldl_cons, List.foldl_nil, dropRepeats]

theorem dropRepeats_sublist (ts : List Term) : (dropRepeats ts).Sublist ts := by
  induction ts using List.reverseRecOn with
  | nil => exact List.Sublist.refl _
  | append_singleton ts t ih =>
    rw [dropRepeats_concat]
    split_ifs
    · exact ih.trans (List.sublist_append_left _ _)
    · exact ih.append (List.Sublist.refl _)

theorem meanings_append (ts us : List Term) : meanings (ts ++ us) = meanings ts ∪ meanings us := by
  ext m
  simp [meanings, or_and_right, exists_or]

/-- **A repeat says nothing new.** -/
theorem meanings_dropRepeats (ts : List Term) : meanings (dropRepeats ts) = meanings ts := by
  induction ts using List.reverseRecOn with
  | nil => rfl
  | append_singleton ts t ih =>
    rw [dropRepeats_concat, meanings_append]
    split_ifs with h
    · obtain ⟨u, hu, heq⟩ := List.any_eq_true.1 h
      rw [ih, Set.union_eq_self_of_subset_right]
      rintro m ⟨v, hv, rfl⟩
      obtain rfl := List.mem_singleton.1 hv
      rw [← ih]
      exact ⟨u, hu, (meaning_of_termEq heq).symm⟩
    · rw [meanings_append, ih]

/-- **Normalising leaves the meanings there were.** -/
theorem meanings_normalizeSide (ts : List Term) : meanings (normalizeSide ts) = meanings ts := by
  rw [normalizeSide, meanings_dropRepeats]
  ext m
  simp [meanings]

/-! ## What is valid -/

/-- A term `check_side` lets pass. -/
inductive Term.Valid (t : Term) : Prop
  | beneath (kind : t.kind = kindPrefix)
  | span (kind : t.kind = kindRange)
  | union (kind : t.kind = kindAlt) (some_member : t.members ≠ [])
      (one_dim : ∀ m ∈ t.members, ∀ n ∈ t.members, m.dim = n.dim)

theorem checkAlt_ok_iff : checkAlt t = .ok () ↔
    t.members ≠ [] ∧ ∀ m ∈ t.members, ∀ n ∈ t.members, m.dim = n.dim := by
  rw [checkAlt]
  split
  next hm => simp [hm]
  next m ms hm =>
    rw [hm]
    split_ifs with hall
    · rw [List.all_eq_true] at hall
      have hdim : ∀ n ∈ m :: ms, n.dim = m.dim := by
        intro n hn
        rcases List.mem_cons.1 hn with rfl | hn
        · rfl
        · exact of_decide_eq_true (hall n hn)
      simpa using fun n hn n' hn' => (hdim n hn).trans (hdim n' hn').symm
    · refine ⟨fun h => absurd h (by simp), fun ⟨_, hdim⟩ => absurd ?_ hall⟩
      exact List.all_eq_true.2 fun n hn => decide_eq_true
        (hdim n (List.mem_cons_of_mem _ hn) m List.mem_cons_self)

theorem checkSide_ok_iff (ts : List Term) : checkSide ts = .ok () ↔ ∀ t ∈ ts, t.Valid := by
  induction ts with
  | nil => simp [checkSide]
  | cons t ts ih =>
    rw [checkSide, List.forall_mem_cons, ← ih]
    split_ifs with hone halt
    · have ht : t.Valid := hone.elim .beneath .span
      exact (and_iff_right ht).symm
    · cases hcheck : checkAlt t with
      | error err =>
        refine ⟨fun h => absurd h (by simp [bind, Except.bind]), fun ⟨ht, _⟩ => ?_⟩
        cases ht with
        | beneath kind => exact absurd (Or.inl kind) hone
        | span kind => exact absurd (Or.inr kind) hone
        | union _ hsome hdim =>
          exact absurd (hcheck.symm.trans (checkAlt_ok_iff.2 ⟨hsome, hdim⟩)) (by simp)
      | ok _ =>
        obtain ⟨hsome, hdim⟩ := checkAlt_ok_iff.1 hcheck
        exact (and_iff_right (.union halt hsome hdim)).symm
    · refine ⟨fun h => absurd h (by simp), fun ⟨ht, _⟩ => ?_⟩
      cases ht with
      | beneath kind => exact absurd (Or.inl kind) hone
      | span kind => exact absurd (Or.inr kind) hone
      | union kind _ _ => exact absurd kind halt

/-- What `fzn_facet_validate` answers, the terms being valid. -/
theorem validate_eq {e : Expr} (hpos : e.pos ≠ []) (h : ∀ t ∈ e.pos ++ e.neg, t.Valid) :
    validate e = if e.pos.any fun p => e.neg.any (termEq p) then .error .bothSides
      else .ok () := by
  have hside : checkSide e.pos = .ok () ∧ checkSide e.neg = .ok () :=
    ⟨(checkSide_ok_iff _).2 fun t ht => h t (List.mem_append_left _ ht),
      (checkSide_ok_iff _).2 fun t ht => h t (List.mem_append_right _ ht)⟩
  rw [validate, if_neg (by simpa using hpos), hside.1, hside.2]
  rfl

/-- What `fzn_facet_validate` accepts. -/
theorem valid_of_validate {e : Expr} (h : validate e = .ok ()) :
    e.pos ≠ [] ∧ ∀ t ∈ e.pos ++ e.neg, t.Valid := by
  by_cases hpos : e.pos.length = 0
  · exact absurd h (by simp [validate, hpos])
  rw [validate, if_neg hpos] at h
  cases hp : checkSide e.pos with
  | error err => rw [hp] at h; exact absurd h (by simp [bind, Except.bind])
  | ok _ =>
    cases hn : checkSide e.neg with
    | error err => rw [hp, hn] at h; exact absurd h (by simp [bind, Except.bind])
    | ok _ =>
      refine ⟨by simpa using hpos, fun t ht => ?_⟩
      rcases List.mem_append.1 ht with ht | ht
      · exact (checkSide_ok_iff _).1 hp t ht
      · exact (checkSide_ok_iff _).1 hn t ht

end Facet
end Fuzznet
