/-
# The bytes of a facet expression

`facet/codec.c`: the comparisons, `fzn_facet_term_encode`, `fzn_facet_expr_encode` and
`fzn_facet_expr_sort`.  Terms stand in the order of their own encodings, members in the order
of theirs, a length byte and the id.

Each comparison of the source is the order of some bytes (`encCmp_eq`, `memberCmp_eq`), so both
sorts leave one thing for each encoding, ascending (`sortMembers_eq`, `sortSide_eq`).  A term
is written where its names fit a length byte and its members ascend (`Term.Writable`), and
then its size and its bytes are a matter of its fields (`termSize_eq`).  What a refused call
leaves in the buffer is left out.
-/

import Fuzznet.Facet.Model
import Fuzznet.Lib.SortBy
import Fuzznet.Wire.Codec

namespace Fuzznet
namespace Facet

open Wire

/-- `FZN_FACET_OBJECT_EXPR`. -/
def objectExpr : UInt8 := 1

/-- `FZN_FACET_EXPR_HEAD_LEN`. -/
def exprHeadLen : ℕ := 5

/-- `FZN_FACET_NAME_MAX`. -/
def nameMax : ℕ := 255

/-- `FZN_FACET_BOUND_OPEN`. -/
def openByte : UInt8 := 0

/-- `FZN_FACET_BOUND_EXCLUSIVE`. -/
def exclusiveByte : UInt8 := 1

/-- `FZN_FACET_BOUND_INCLUSIVE`. -/
def inclusiveByte : UInt8 := 2

/-! ## Comparisons -/

/-- `memcmp` over what two byte strings both have. -/
def memcmp : Bytes → Bytes → Ordering
  | a :: as, b :: bs =>
    match compare a b with
    | .eq => memcmp as bs
    | o => o
  | _, _ => .eq

/-- `enc_cmp`. -/
def encCmp (a b : Bytes) : Ordering :=
  match memcmp a b with
  | .eq => compare a.length b.length
  | o => o

/-- `member_cmp`. -/
def memberCmp (a b : Node) : Ordering :=
  if a.id.length ≠ b.id.length then (if a.id.length < b.id.length then .lt else .gt)
  else if a.id.length = 0 then .eq
  else memcmp a.id b.id

/-! ## Writing a term -/

/-- `name_ok`. -/
def nameOk (b : Bytes) : Bool :=
  decide (0 < b.length) && decide (b.length ≤ nameMax)

/-- The length of a bound's id. -/
def Bound.idLen (b : Bound) : ℕ :=
  (b.id.getD []).length

/-- `bound_len`. -/
def boundLen (b : Bound) : ℕ :=
  if boundOpen b then 1 else 1 + 1 + b.idLen

/-- The members of an alternation in `term_size`: the size so far and what they add. -/
def membersSize (dim : Bytes) : Option Node → List Node → ℕ → Except Err ℕ
  | _, [], n => .ok n
  | before, m :: ms, n =>
    if nameMax < m.id.length then .error .range
    else if nameOk m.id = false then .error .malformed
    else if encCmp m.dim dim ≠ .eq then .error .altDimension
    else if before.any fun b => memberCmp b m ≠ .lt then .error .malformed
    else membersSize dim (some m) ms (n + (1 + m.id.length))

/-- `term_size`. -/
def termSize (t : Term) : Except Err ℕ :=
  if t.kind ≠ kindPrefix ∧ t.kind ≠ kindRange ∧ t.kind ≠ kindAlt then .error .kind
  else if nameMax < t.node.dim.length ∨ nameMax < t.node.id.length ∨ nameMax < t.lo.idLen ∨
      nameMax < t.hi.idLen then .error .range
  else if nameOk t.node.dim = false then .error .malformed
  else if t.kind = kindPrefix then
    if nameOk t.node.id = false then .error .malformed
    else .ok (1 + 1 + t.node.dim.length + 1 + t.node.id.length)
  else if t.kind = kindRange then
    if nameOk t.node.id = false then .error .malformed
    else if t.lo.id.any fun id => nameOk id = false then .error .malformed
    else if t.hi.id.any fun id => nameOk id = false then .error .malformed
    else .ok (1 + 1 + t.node.dim.length + 1 + t.node.id.length + boundLen t.lo + boundLen t.hi)
  else if 0xffff < t.members.length then .error .range
  else if t.members.length < 2 then .error .malformed
  else membersSize t.node.dim none t.members (1 + 1 + t.node.dim.length + 2)

/-- `put_name`. -/
def putName (b : Bytes) : Bytes :=
  UInt8.ofNat b.length :: b

/-- `put_bound`. -/
def putBound (b : Bound) : Bytes :=
  if boundOpen b then [openByte]
  else (if b.inclusive ≠ 0 then inclusiveByte else exclusiveByte) :: putName (b.id.getD [])

/-- What `fzn_facet_term_encode` writes. -/
def termBytes (t : Term) : Bytes :=
  UInt8.ofNat t.kind :: (putName t.node.dim ++
    if t.kind = kindPrefix then putName t.node.id
    else if t.kind = kindRange then putName t.node.id ++ putBound t.lo ++ putBound t.hi
    else putBe 2 t.members.length ++ t.members.flatMap fun m => putName m.id)

/-- `fzn_facet_term_encode`. -/
def termEncode (t : Term) (cap : ℕ) : Except Err Bytes := do
  let need ← termSize t
  if cap < need then .error .range else .ok (termBytes t)

/-! ## Writing an expression -/

/-- The sizes of some terms, added to what is there. -/
def addSizes (n : ℕ) : List Term → Except Err ℕ
  | [] => .ok n
  | t :: ts => do
    let s ← termSize t
    addSizes (n + s) ts

/-- The terms of a side one behind the other, each above the one before. -/
def encodeSide : Option Bytes → List Term → ℕ → Except Err Bytes
  | _, [], _ => .ok []
  | before, t :: ts, room => do
    let bs ← termEncode t room
    if before.any fun b => encCmp b bs ≠ .lt then .error .malformed
    else do
      let rest ← encodeSide (some bs) ts (room - bs.length)
      .ok (bs ++ rest)

/-- `fzn_facet_expr_encode`. -/
def exprEncode (e : Expr) (cap : ℕ) : Except Err Bytes := do
  validate e
  if 0xffff < e.pos.length ∨ 0xffff < e.neg.length then .error .range
  else do
    let total ← addSizes exprHeadLen (e.pos ++ e.neg)
    if cap < total then .error .range
    else do
      let pos ← encodeSide none e.pos (cap - exprHeadLen)
      let neg ← encodeSide none e.neg (cap - exprHeadLen - pos.length)
      .ok (objectExpr :: (putBe 2 e.pos.length ++ putBe 2 e.neg.length ++ pos ++ neg))

/-! ## Sorting -/

/-- `sort_members`. -/
def sortMembers (ms : List Node) : List Node :=
  Lib.sortDedup (m := Id) (fun a b => pure (memberCmp a b)) ms

/-- An alternation with its members in order, as a node where one is left. -/
def sortTerm (t : Term) : Term :=
  if t.kind = kindAlt then collapse { t with members := sortMembers t.members } else t

/-- `term_cmp`. -/
def termCmp (cap : ℕ) (a b : Term) : Except Err Ordering := do
  let x ← termEncode a (cap / 2)
  let y ← termEncode b (cap - cap / 2)
  .ok (encCmp x y)

/-- `sort_side`. -/
def sortSide (scratchCap : ℕ) (ts : List Term) : Except Err (List Term) :=
  Lib.sortDedup (termCmp scratchCap) (ts.map sortTerm)

/-- `fzn_facet_expr_sort`. -/
def exprSort (e : Expr) (scratchCap : ℕ) : Except Err Expr :=
  if scratchCap < 4 then .error .range
  else do
    let pos ← sortSide scratchCap e.pos
    let neg ← sortSide scratchCap e.neg
    .ok ⟨pos, neg⟩

/-! ## The comparisons are orders -/

variable {t u : Term} {ts : List Term}

/-- **`enc_cmp` is the order of byte strings.** -/
theorem encCmp_eq (a b : Bytes) : encCmp a b = compare a b := by
  induction a generalizing b with
  | nil =>
    cases b with
    | nil => rfl
    | cons b bs => exact Nat.compare_eq_lt.2 (Nat.succ_pos bs.length)
  | cons a as ih =>
    cases b with
    | nil => exact Nat.compare_eq_gt.2 (Nat.succ_pos as.length)
    | cons b bs =>
      have hlist : compare (a :: as) (b :: bs) = (compare a b).then (compare as bs) :=
        List.compareLex_cons_cons
      rw [hlist, ← ih, encCmp, memcmp]
      cases hc : compare a b with
      | lt => rfl
      | gt => rfl
      | eq =>
        rw [encCmp, List.length_cons, List.length_cons]
        simp only [Ordering.then]
        split <;> simp_all [Nat.compare_eq_ite_lt]

theorem memcmp_eq {a b : Bytes} (h : a.length = b.length) : memcmp a b = compare a b := by
  rw [← encCmp_eq, encCmp, h]
  cases memcmp a b with
  | lt => rfl
  | gt => rfl
  | eq => exact (Nat.compare_eq_eq.2 rfl).symm

/-- **`member_cmp` is the order of the members' encodings.** -/
theorem memberCmp_eq {a b : Node} (ha : a.id.length ≤ nameMax) (hb : b.id.length ≤ nameMax) :
    memberCmp a b = compare (putName a.id) (putName b.id) := by
  have hlist : compare (putName a.id) (putName b.id) =
      (compare (UInt8.ofNat a.id.length) (UInt8.ofNat b.id.length)).then (compare a.id b.id) :=
    List.compareLex_cons_cons
  have hnat : ∀ n, n ≤ nameMax → (UInt8.ofNat n).toNat = n := by
    intro n hn
    rw [UInt8.toNat_ofNat']
    simp only [nameMax] at hn
    omega
  have hlt : ∀ m n, m ≤ nameMax → n ≤ nameMax → m < n →
      compare (UInt8.ofNat m) (UInt8.ofNat n) = .lt := by
    intro m n hm hn hmn
    refine if_pos ?_
    rw [UInt8.lt_iff_toNat_lt, hnat m hm, hnat n hn]
    exact hmn
  rw [hlist, memberCmp]
  rcases Nat.lt_trichotomy a.id.length b.id.length with h | h | h
  · rw [if_pos (Nat.ne_of_lt h), if_pos h, hlt _ _ ha hb h]
    rfl
  · have hself : compare (UInt8.ofNat b.id.length) (UInt8.ofNat b.id.length) = .eq :=
      Std.ReflCmp.compare_self
    rw [if_neg (not_not.2 h), h, hself]
    split_ifs with hzero
    · rw [List.length_eq_zero_iff.1 (h.trans hzero), List.length_eq_zero_iff.1 hzero]
      rfl
    · exact memcmp_eq h
  · rw [if_pos (Nat.ne_of_gt h), if_neg (Nat.not_lt.2 h.le),
      Std.OrientedCmp.gt_iff_lt.2 (hlt _ _ hb ha h)]
    rfl

/-! ## What can be written -/

/-- A name that fits its length byte. -/
def Named (b : Bytes) : Prop :=
  0 < b.length ∧ b.length ≤ nameMax

/-- Names that fit in what a term's kind uses. -/
inductive Term.Shape (t : Term) : Prop
  | beneath (kind : t.kind = kindPrefix) (id : Named t.node.id)
  | span (kind : t.kind = kindRange) (id : Named t.node.id) (lo : ∀ id ∈ t.lo.id, Named id)
      (hi : ∀ id ∈ t.hi.id, Named id)
  | union (kind : t.kind = kindAlt) (two : 2 ≤ t.members.length)
      (few : t.members.length ≤ 0xffff) (ids : ∀ m ∈ t.members, Named m.id)
      (dims : ∀ m ∈ t.members, m.dim = t.node.dim)
      (ascending : Lib.Ascending (fun m : Node => putName m.id) t.members)

/-- No name of a term is longer than a length byte says, and the dimension has one. -/
structure Term.Fits (t : Term) : Prop where
  dim : Named t.node.dim
  id : t.node.id.length ≤ nameMax
  lo : t.lo.idLen ≤ nameMax
  hi : t.hi.idLen ≤ nameMax

/-- A term `fzn_facet_term_encode` writes, given room. -/
structure Term.Writable (t : Term) : Prop where
  fits : t.Fits
  shape : t.Shape

/-- How many bytes a term takes. -/
def Term.extent (t : Term) : ℕ :=
  if t.kind = kindPrefix then 1 + 1 + t.node.dim.length + 1 + t.node.id.length
  else if t.kind = kindRange then
    1 + 1 + t.node.dim.length + 1 + t.node.id.length + boundLen t.lo + boundLen t.hi
  else 1 + 1 + t.node.dim.length + 2 + (t.members.map fun m => 1 + m.id.length).sum

theorem Named.nameOk {b : Bytes} (h : Named b) : nameOk b = true := by
  simp [Facet.nameOk, h.1, h.2]

theorem membersSize_eq {dim : Bytes} {b : Option Node} {ms : List Node} {n : ℕ}
    (ids : ∀ m ∈ ms, Named m.id) (dims : ∀ m ∈ ms, m.dim = dim)
    (hb : ∀ c ∈ b, Named c.id)
    (ascending : Lib.Ascending (fun m : Node => putName m.id) (b.toList ++ ms)) :
    membersSize dim b ms n = .ok (n + (ms.map fun m => 1 + m.id.length).sum) := by
  induction ms generalizing b n with
  | nil => rfl
  | cons m ms ih =>
    obtain ⟨hm, hms⟩ := List.forall_mem_cons.1 ids
    have hdim : encCmp m.dim dim = .eq := by
      rw [encCmp_eq, dims m List.mem_cons_self]
      exact Std.ReflCmp.compare_self
    have hasc : (b.any fun c => decide (memberCmp c m ≠ .lt)) = false := by
      cases b with
      | none => rfl
      | some c =>
        have hlt := (List.pairwise_cons.1 ascending).1 m List.mem_cons_self
        rw [← memberCmp_eq (hb c rfl).2 hm.2] at hlt
        simp [hlt]
    have hrest : Lib.Ascending (fun m : Node => putName m.id) (m :: ms) := by
      cases b with
      | none => exact ascending
      | some c => exact (List.pairwise_cons.1 ascending).2
    rw [membersSize, if_neg (Nat.not_lt.2 hm.2), if_neg (by simp [hm.nameOk]),
      if_neg (not_not.2 hdim), hasc]
    rw [if_neg (by decide), ih (b := some m) hms
      (fun k hk => dims k (List.mem_cons_of_mem _ hk)) (by simpa using hm) hrest, List.map_cons,
      List.sum_cons, Nat.add_assoc]

/-- **The size of a term that can be written.** -/
theorem termSize_eq (h : t.Writable) : termSize t = .ok t.extent := by
  obtain ⟨⟨hdim, hid, hlo, hhi⟩, hshape⟩ := h
  have hshort : ¬ (nameMax < t.node.dim.length ∨ nameMax < t.node.id.length ∨
      nameMax < t.lo.idLen ∨ nameMax < t.hi.idLen) := by
    have := hdim.2
    omega
  cases hshape with
  | beneath kind id =>
    rw [termSize, Term.extent, if_neg (by simp [kind]), if_neg hshort,
      if_neg (by simp [hdim.nameOk]), if_pos kind, if_neg (by simp [id.nameOk]), if_pos kind]
  | span kind id lo hi =>
    have hopen : ∀ b : Bound, (∀ id ∈ b.id, Named id) →
        ¬ (b.id.any fun id => decide (nameOk id = false)) = true := by
      intro b hb hany
      obtain ⟨id, hid, hno⟩ := (Option.any_eq_true _ _).1 hany
      exact absurd (of_decide_eq_true hno) (by simp [(hb id hid).nameOk])
    rw [termSize, Term.extent, if_neg (by simp [kind]), if_neg hshort,
      if_neg (by simp [hdim.nameOk]), if_neg (by rw [kind]; decide), if_pos kind,
      if_neg (by simp [id.nameOk]), if_neg (hopen _ lo), if_neg (hopen _ hi),
      if_neg (by rw [kind]; decide), if_pos kind]
  | union kind two few ids dims ascending =>
    rw [termSize, Term.extent, if_neg (by simp [kind]), if_neg hshort,
      if_neg (by simp [hdim.nameOk]), if_neg (by rw [kind]; decide),
      if_neg (by rw [kind]; decide), if_neg (Nat.not_lt.2 few), if_neg (Nat.not_lt.2 two),
      membersSize_eq (b := none) ids dims (by simp) ascending, if_neg (by rw [kind]; decide),
      if_neg (by rw [kind]; decide)]

@[simp] theorem length_putName (b : Bytes) : (putName b).length = 1 + b.length := by
  rw [putName, List.length_cons, Nat.add_comm]

theorem length_putBound (b : Bound) : (putBound b).length = boundLen b := by
  rw [putBound, boundLen, Bound.idLen]
  split_ifs
  · rfl
  all_goals
    rw [List.length_cons, length_putName]
    omega

@[simp] theorem length_termBytes (t : Term) : (termBytes t).length = t.extent := by
  rw [termBytes, Term.extent]
  split_ifs
  · simp
    omega
  · simp [length_putBound]
    omega
  · simp [List.length_flatMap]
    omega

/-- **A term is written whole where it has room.** -/
theorem termEncode_eq (h : t.Writable) {cap : ℕ} (hcap : t.extent ≤ cap) :
    termEncode t cap = .ok (termBytes t) := by
  rw [termEncode, termSize_eq h]
  exact if_neg (Nat.not_lt.2 hcap)

end Facet
end Fuzznet
