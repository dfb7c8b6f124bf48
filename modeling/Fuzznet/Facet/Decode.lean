/-
# Reading a facet expression

`facet/codec.c`: `take_name`, `take_bound`, `take_term` and `fzn_facet_expr_decode`.  What is
read is a term in one spelling of it (`Term.spelt`): the fields its kind does not use are
blank, an inclusive bound says one, and an alternation's node is its dimension.

A term written is read back so spelt (`takeTerm_termBytes`), and what is read is what was
written (`takeTerm_ok`); the same goes for a side (`takeSide_eq`, `takeSide_ok`), and then for an
expression.  Two ascending sides have a term in common exactly where the walk over both meets
it (`meet_eq`).  Where a refusal happened, `at_out`, is left out.
-/

import Fuzznet.Facet.Codec

namespace Fuzznet
namespace Facet

open Wire

/-- Nothing there is an encoding that is not one. -/
def orMalformed {α : Type} : Option α → Except Err α
  | none => .error .malformed
  | some a => .ok a

theorem ok_bind {α β : Type} (a : α) (f : α → Except Err β) : (Except.ok a >>= f) = f a := rfl

theorem bind_eq_ok {α β : Type} {x : Except Err α} {f : α → Except Err β} {b : β} :
    (x >>= f) = .ok b ↔ ∃ a, x = .ok a ∧ f a = .ok b := by
  cases x with
  | error err =>
    exact ⟨fun h => absurd h (by simp [bind, Except.bind]), fun ⟨_, h, _⟩ => absurd h (by simp)⟩
  | ok a => exact ⟨fun h => ⟨a, rfl, h⟩, fun ⟨_, ha, h⟩ => Except.ok.inj ha ▸ h⟩

theorem orMalformed_ok {α : Type} {x : Option α} {a : α} : orMalformed x = .ok a ↔ x = some a := by
  cases x <;> simp [orMalformed]

/-- `take_name`: the name in front and what is behind it. -/
def takeName : Bytes → Option (Bytes × Bytes)
  | [] => none
  | n :: rest =>
    if n = 0 ∨ rest.length < n.toNat then none
    else some (rest.take n.toNat, rest.drop n.toNat)

/-- `take_bound`. -/
def takeBound : Bytes → Option (Bound × Bytes)
  | [] => none
  | what :: rest =>
    if what = openByte then some (⟨none, 0⟩, rest)
    else if what ≠ exclusiveByte ∧ what ≠ inclusiveByte then none
    else (takeName rest).map fun x => (⟨some x.1, if what = inclusiveByte then 1 else 0⟩, x.2)

/-- The members of an alternation in `take_term`, each above the one before. -/
def takeMembers (dim : Bytes) : ℕ → Option Bytes → Bytes → Option (List Node × Bytes)
  | 0, _, bs => some ([], bs)
  | n + 1, before, bs =>
    match takeName bs with
    | none => none
    | some (id, rest) =>
      let here := bs.take (bs.length - rest.length)
      if before.any fun b => encCmp b here ≠ .lt then none
      else (takeMembers dim n (some here) rest).map fun x => (⟨dim, id⟩ :: x.1, x.2)

/-- A term of all zero bytes. -/
def Term.zero : Term :=
  ⟨0, ⟨[], []⟩, ⟨none, 0⟩, ⟨none, 0⟩, []⟩

/-- `take_term`: the term in front, with room for `memberCap` members, and what is behind. -/
def takeTerm (bs : Bytes) (memberCap : ℕ) : Except Err (Term × Bytes) :=
  match bs with
  | [] => .error .malformed
  | kind :: bs =>
    if kind.toNat ≠ kindPrefix ∧ kind.toNat ≠ kindRange ∧ kind.toNat ≠ kindAlt then .error .kind
    else do
      let (dim, bs) ← orMalformed (takeName bs)
      if kind.toNat = kindPrefix then do
        let (id, bs) ← orMalformed (takeName bs)
        .ok ({ Term.zero with kind := kind.toNat, node := ⟨dim, id⟩ }, bs)
      else if kind.toNat = kindRange then do
        let (id, bs) ← orMalformed (takeName bs)
        let (lo, bs) ← orMalformed (takeBound bs)
        let (hi, bs) ← orMalformed (takeBound bs)
        .ok ({ Term.zero with kind := kind.toNat, node := ⟨dim, id⟩, lo := lo, hi := hi }, bs)
      else if bs.length < 2 then .error .malformed
      else
        let count := getBe bs 0 2
        if count < 2 then .error .malformed
        else if memberCap < count then .error .range
        else do
          let (members, bs) ← orMalformed (takeMembers dim count none (bs.drop 2))
          .ok ({ Term.zero with kind := kind.toNat, node := ⟨dim, []⟩, members := members }, bs)

/-- The terms of a side, each above the one before, with room for `altCap` members. -/
def takeSide : ℕ → Option Bytes → ℕ → Bytes → Except Err (List Term × ℕ × Bytes)
  | 0, _, altCap, bs => .ok ([], altCap, bs)
  | n + 1, before, altCap, bs => do
    let (t, rest) ← takeTerm bs altCap
    let here := bs.take (bs.length - rest.length)
    if before.any fun b => encCmp b here ≠ .lt then .error .malformed
    else do
      let (ts, altCap, rest) ← takeSide n (some here) (altCap - t.members.length) rest
      .ok (t :: ts, altCap, rest)

/-- The walk over both sides, `a` and `b` being the bytes from the terms in turn on. -/
def meet : List Term → Bytes → List Term → Bytes → Except Err Unit
  | p :: ps, a, n :: ns, b =>
    match termSize p, termSize n with
    | .ok alen, .ok blen =>
      match encCmp (a.take alen) (b.take blen) with
      | .eq => .error .bothSides
      | .lt => meet ps (a.drop alen) (n :: ns) b
      | .gt => meet (p :: ps) a ns (b.drop blen)
    | _, _ => .error .malformed
  | _, _, _, _ => .ok ()
  termination_by ps _ ns _ => ps.length + ns.length

/-- `fzn_facet_expr_decode`. -/
def exprDecode (body : Bytes) (posCap negCap altCap : ℕ) : Except Err Expr :=
  if body.length < exprHeadLen then .error .malformed
  else if body.getD 0 0 ≠ objectExpr then .error .malformed
  else
    let posCount := getBe body 1 2
    let negCount := getBe body 3 2
    if posCount = 0 then .error .emptyPos
    else if posCap < posCount ∨ negCap < negCount then .error .range
    else do
      let (pos, altCap, negAt) ← takeSide posCount none altCap (body.drop exprHeadLen)
      let (neg, _, rest) ← takeSide negCount none altCap negAt
      if rest.length ≠ 0 then .error .malformed
      else do
        meet pos (body.drop exprHeadLen) neg negAt
        .ok ⟨pos, neg⟩

/-! ## Names and bounds -/

variable {t u : Term} {ts : List Term} {b : Bound} {bs rest name : Bytes}

theorem toNat_length_ofNat (h : name.length ≤ nameMax) :
    (UInt8.ofNat name.length).toNat = name.length := by
  rw [UInt8.toNat_ofNat']
  simp only [nameMax] at h
  omega

theorem takeName_putName (h : Named name) (rest : Bytes) :
    takeName (putName name ++ rest) = some (name, rest) := by
  have hlen := toNat_length_ofNat h.2
  have hpos := h.1
  rw [putName, List.cons_append, takeName, hlen, if_neg, List.take_left, List.drop_left]
  rintro (hzero | hshort)
  · rw [hzero] at hlen
    exact absurd hlen (by simpa using (Nat.ne_of_gt hpos).symm)
  · rw [List.length_append] at hshort
    omega

theorem takeName_some (h : takeName bs = some (name, rest)) :
    Named name ∧ bs = putName name ++ rest := by
  cases bs with
  | nil => exact absurd h (by simp [takeName])
  | cons n bs =>
    rw [takeName] at h
    split_ifs at h with hbad
    obtain ⟨hzero, hlong⟩ := not_or.1 hbad
    obtain ⟨rfl, rfl⟩ := Prod.mk.inj (Option.some.inj h)
    have hlen : (bs.take n.toNat).length = n.toNat := by
      rw [List.length_take]
      omega
    have hpos : 0 < n.toNat := Nat.pos_of_ne_zero fun h0 => hzero (UInt8.toNat_inj.1 h0)
    have hmax : n.toNat ≤ nameMax := by
      have := n.toNat_lt
      simp only [nameMax]
      omega
    refine ⟨⟨by rwa [hlen], by rwa [hlen]⟩, ?_⟩
    rw [putName, hlen, UInt8.ofNat_toNat, List.cons_append, List.take_append_drop]

/-- A bound as it is read. -/
def Bound.spelt (b : Bound) : Bound :=
  if boundOpen b then ⟨none, 0⟩ else ⟨b.id, if b.inclusive ≠ 0 then 1 else 0⟩

theorem Bound.some_of_not_open (h : ¬ boundOpen b = true) : ∃ id, b.id = some id := by
  cases hid : b.id with
  | none => exact absurd (by rw [boundOpen, hid]) h
  | some id => exact ⟨id, rfl⟩

theorem takeBound_putBound (h : ∀ id ∈ b.id, Named id) (rest : Bytes) :
    takeBound (putBound b ++ rest) = some (b.spelt, rest) := by
  by_cases hopen : boundOpen b = true
  · rw [putBound, if_pos hopen, Bound.spelt, if_pos hopen]
    rfl
  · obtain ⟨id, hid⟩ := Bound.some_of_not_open hopen
    have hname : takeName (putName id ++ rest) = some (id, rest) := takeName_putName (h id hid) rest
    rw [putBound, if_neg hopen, Bound.spelt, if_neg hopen, hid, Option.getD_some,
      List.cons_append, takeBound, hname]
    by_cases hinc : b.inclusive = 0
    · simp [hinc, openByte, inclusiveByte, exclusiveByte]
    · simp [hinc, openByte, inclusiveByte, exclusiveByte]

theorem takeBound_some (h : takeBound bs = some (b, rest)) :
    bs = putBound b ++ rest ∧ (∀ id ∈ b.id, Named id) ∧ b.spelt = b := by
  cases bs with
  | nil => exact absurd h (by simp [takeBound])
  | cons what bs =>
    rw [takeBound] at h
    split_ifs at h with hopen hwhat
    · obtain ⟨rfl, rfl⟩ := Prod.mk.inj (Option.some.inj h)
      refine ⟨?_, by simp, rfl⟩
      rw [hopen]
      rfl
    all_goals
      obtain ⟨⟨id, r⟩, hname, heq⟩ := Option.map_eq_some_iff.1 h
      obtain ⟨rfl, rfl⟩ := Prod.mk.inj heq
      obtain ⟨hnamed, rfl⟩ := takeName_some hname
      have hclosed : (id.length == 0) = false := by simpa using List.length_pos_iff.1 hnamed.1
    next hinc =>
      exact ⟨by simp [putBound, boundOpen, hclosed, hinc], by simpa using hnamed,
        by simp [Bound.spelt, boundOpen, hclosed]⟩
    next hinc =>
      have hexc : what = exclusiveByte := by tauto
      exact ⟨by simp [putBound, boundOpen, hclosed, hexc], by simpa using hnamed,
        by simp [Bound.spelt, boundOpen, hclosed]⟩

theorem idLen_le (h : ∀ id ∈ b.id, Named id) : b.idLen ≤ nameMax := by
  obtain ⟨_ | id, i⟩ := b
  · exact Nat.zero_le _
  · exact (h id rfl).2

@[simp] theorem Bound.meaning_spelt (b : Bound) : b.spelt.meaning = b.meaning := by
  obtain ⟨_ | _ | ⟨x, xs⟩, i⟩ := b
  · rfl
  · rfl
  · by_cases hi : i = 0
    · simp [Bound.spelt, Bound.meaning, boundOpen, hi]
    · simp [Bound.spelt, Bound.meaning, boundOpen, hi]

/-- Bounds that say the same are read as the same. -/
theorem Bound.spelt_eq {c : Bound} (h : b.meaning = c.meaning) : b.spelt = c.spelt := by
  obtain ⟨_ | _ | ⟨x, xs⟩, i⟩ := b <;> obtain ⟨_ | _ | ⟨y, ys⟩, j⟩ := c <;>
    simp_all [Bound.spelt, Bound.meaning, boundOpen]

/-! ## Terms -/

variable {c : Option Bytes}

theorem takeMembers_eq {dim : Bytes} {ms : List Node} (ids : ∀ m ∈ ms, Named m.id)
    (dims : ∀ m ∈ ms, m.dim = dim) (ascending : Lib.Ascending (fun m : Node => putName m.id) ms)
    (hc : ∀ b ∈ c, ∀ m ∈ ms, compare b (putName m.id) = .lt) (rest : Bytes) :
    takeMembers dim ms.length c ((ms.flatMap fun m => putName m.id) ++ rest) = some (ms, rest) := by
  induction ms generalizing c with
  | nil => rfl
  | cons m ms ih =>
    obtain ⟨hm, hms⟩ := List.forall_mem_cons.1 ids
    obtain ⟨hlt, hasc⟩ := List.pairwise_cons.1 ascending
    have hbefore : ¬ (c.any fun b => decide (encCmp b (putName m.id) ≠ .lt)) = true := by
      intro hany
      obtain ⟨b, hb, hno⟩ := (Option.any_eq_true _ _).1 hany
      exact of_decide_eq_true hno ((encCmp_eq _ _).trans (hc b hb m List.mem_cons_self))
    have hhere : ∀ bs : Bytes, ((putName m.id ++ bs).take
        ((putName m.id ++ bs).length - bs.length)) = putName m.id := by
      intro bs
      rw [List.length_append, Nat.add_sub_cancel, List.take_left]
    have hih := ih (c := some (putName m.id)) hms
      (fun k hk => dims k (List.mem_cons_of_mem _ hk)) hasc (by simpa using hlt)
    rw [List.length_cons, takeMembers, List.flatMap_cons, List.append_assoc,
      takeName_putName hm]
    simp only [hhere]
    rw [if_neg hbefore, hih, ← dims m List.mem_cons_self]
    rfl

theorem takeMembers_some {dim : Bytes} {n : ℕ} {ms : List Node}
    (h : takeMembers dim n c bs = some (ms, rest)) :
    ms.length = n ∧ bs = (ms.flatMap fun m => putName m.id) ++ rest ∧
      (∀ m ∈ ms, Named m.id ∧ m.dim = dim) ∧
      Lib.Ascending (fun m : Node => putName m.id) ms ∧
      ∀ b ∈ c, ∀ m ∈ ms, compare b (putName m.id) = .lt := by
  induction n generalizing c ms bs with
  | zero =>
    obtain ⟨rfl, rfl⟩ := Prod.mk.inj (Option.some.inj h)
    exact ⟨rfl, rfl, by simp, List.Pairwise.nil, by simp⟩
  | succ n ih =>
    rw [takeMembers] at h
    split at h
    · exact absurd h (by simp)
    next id r hname =>
      obtain ⟨hid, rfl⟩ := takeName_some hname
      rw [List.length_append, Nat.add_sub_cancel, List.take_left] at h
      simp only at h
      split_ifs at h with hbefore
      obtain ⟨⟨ms', r'⟩, hrec, heq⟩ := Option.map_eq_some_iff.1 h
      obtain ⟨rfl, rfl⟩ := Prod.mk.inj heq
      obtain ⟨hlen, rfl, hms, hasc, hlt⟩ := ih hrec
      have hhead : ∀ m ∈ ms', compare (putName id) (putName m.id) = .lt := hlt _ rfl
      refine ⟨by rw [List.length_cons, hlen], by simp, ?_, List.pairwise_cons.2 ⟨hhead, hasc⟩, ?_⟩
      · exact List.forall_mem_cons.2 ⟨⟨hid, rfl⟩, hms⟩
      · rintro b hb m hm
        have hbid : compare b (putName id) = .lt := by
          rw [← encCmp_eq]
          by_contra hno
          exact hbefore ((Option.any_eq_true _ _).2 ⟨b, hb, decide_eq_true hno⟩)
        rcases List.mem_cons.1 hm with rfl | hm
        · exact hbid
        · exact Std.TransCmp.lt_trans hbid (hhead m hm)

/-- A term as it is read. -/
def Term.spelt (t : Term) : Term :=
  if t.kind = kindPrefix then { Term.zero with kind := t.kind, node := t.node }
  else if t.kind = kindRange then
    { Term.zero with kind := t.kind, node := t.node, lo := t.lo.spelt, hi := t.hi.spelt }
  else { Term.zero with kind := t.kind, node := ⟨t.node.dim, []⟩, members := t.members }

theorem getBe_putBe_append (n : ℕ) (rest : Bytes) (h : n ≤ 0xffff) :
    getBe (putBe 2 n ++ rest) 0 2 = n :=
  getBe_putBe_of_lt rest (by omega)

/-- **A term written is read back**, with anything behind it. -/
theorem takeTerm_termBytes (h : t.Writable) {cap : ℕ} (hcap : t.spelt.members.length ≤ cap)
    (rest : Bytes) : takeTerm (termBytes t ++ rest) cap = .ok (t.spelt, rest) := by
  obtain ⟨⟨hdim, -, -, -⟩, hshape⟩ := h
  rw [termBytes, List.cons_append, takeTerm, List.append_assoc]
  cases hshape with
  | beneath kind id =>
    have hkind : (UInt8.ofNat t.kind).toNat = kindPrefix := by rw [kind]; rfl
    rw [hkind, if_neg (by decide), takeName_putName hdim, if_pos kind, Term.spelt, if_pos kind]
    simp only [orMalformed, ok_bind, takeName_putName id]
    rw [if_pos trivial, kind]
  | span kind id lo hi =>
    have hkind : (UInt8.ofNat t.kind).toNat = kindRange := by rw [kind]; rfl
    have hno : ¬ t.kind = kindPrefix := by rw [kind]; decide
    rw [hkind, if_neg (by decide), takeName_putName hdim, if_neg hno, if_pos kind, Term.spelt,
      if_neg hno, if_pos kind, List.append_assoc, List.append_assoc]
    simp only [orMalformed, ok_bind, takeName_putName id, takeBound_putBound lo,
      takeBound_putBound hi]
    rw [if_neg (by decide), if_pos trivial, kind]
  | union kind two few ids dims ascending =>
    have hkind : (UInt8.ofNat t.kind).toNat = kindAlt := by rw [kind]; rfl
    have hno : ¬ t.kind = kindPrefix := by rw [kind]; decide
    have hno' : ¬ t.kind = kindRange := by rw [kind]; decide
    have hmembers : t.members.length ≤ cap := by
      rwa [Term.spelt, if_neg hno, if_neg hno'] at hcap
    have hdrop : (putBe 2 t.members.length ++ ((t.members.flatMap fun m => putName m.id) ++
        rest)).drop 2 = (t.members.flatMap fun m => putName m.id) ++ rest :=
      List.drop_left' (length_putBe _ _)
    rw [hkind, if_neg (by decide), takeName_putName hdim, if_neg hno, if_neg hno', Term.spelt,
      if_neg hno, if_neg hno', List.append_assoc]
    have hcount : ¬ (putBe 2 t.members.length ++
        ((t.members.flatMap fun m => putName m.id) ++ rest)).length < 2 := by
      rw [List.length_append, length_putBe]
      omega
    simp only [orMalformed, ok_bind, getBe_putBe_append _ _ few, hdrop]
    rw [if_neg (by decide), if_neg (by decide), if_neg hcount, if_neg (Nat.not_lt.2 two),
      if_neg (Nat.not_lt.2 hmembers), takeMembers_eq (c := none) ids dims ascending (by simp),
      kind]
    rfl

/-- **What is read is a term written**, spelt as it is read. -/
theorem takeTerm_ok {cap : ℕ} (h : takeTerm bs cap = .ok (t, rest)) :
    bs = termBytes t ++ rest ∧ t.Writable ∧ t.spelt = t ∧ t.members.length ≤ cap := by
  cases bs with
  | nil => exact absurd h (by simp [takeTerm])
  | cons k bs =>
    rw [takeTerm] at h
    split_ifs at h with hkind hone hspan
    all_goals
      obtain ⟨⟨dim, bs₁⟩, e₁, h₁⟩ := bind_eq_ok.1 h
      obtain ⟨hdim, rfl⟩ := takeName_some (orMalformed_ok.1 e₁)
    next =>
      obtain ⟨⟨id, bs₂⟩, e₂, h₂⟩ := bind_eq_ok.1 h₁
      obtain ⟨hid, rfl⟩ := takeName_some (orMalformed_ok.1 e₂)
      obtain ⟨rfl, rfl⟩ := Prod.mk.inj (Except.ok.inj h₂)
      refine ⟨?_, ⟨⟨hdim, hid.2, Nat.zero_le _, Nat.zero_le _⟩, .beneath hone hid⟩, ?_,
        Nat.zero_le _⟩
      · simp only [termBytes, UInt8.ofNat_toNat, if_pos hone, List.cons_append, List.append_assoc]
      · simp only [Term.spelt, if_pos hone]
    next =>
      obtain ⟨⟨id, bs₂⟩, e₂, h₂⟩ := bind_eq_ok.1 h₁
      obtain ⟨hid, rfl⟩ := takeName_some (orMalformed_ok.1 e₂)
      obtain ⟨⟨lo, bs₃⟩, e₃, h₃⟩ := bind_eq_ok.1 h₂
      obtain ⟨rfl, hlo, hlo'⟩ := takeBound_some (orMalformed_ok.1 e₃)
      obtain ⟨⟨hi, bs₄⟩, e₄, h₄⟩ := bind_eq_ok.1 h₃
      obtain ⟨rfl, hhi, hhi'⟩ := takeBound_some (orMalformed_ok.1 e₄)
      obtain ⟨rfl, rfl⟩ := Prod.mk.inj (Except.ok.inj h₄)
      refine ⟨?_, ⟨⟨hdim, hid.2, idLen_le hlo, idLen_le hhi⟩, .span hspan hid hlo hhi⟩, ?_,
        Nat.zero_le _⟩
      · simp only [termBytes, UInt8.ofNat_toNat, if_neg hone, if_pos hspan, List.cons_append,
          List.append_assoc]
      · simp only [Term.spelt, if_neg hone, if_pos hspan, hlo', hhi']
    next =>
      simp only at h₁
      by_cases hshort : bs₁.length < 2
      · exact absurd h₁ (by simp [hshort])
      by_cases hfew : getBe bs₁ 0 2 < 2
      · exact absurd h₁ (by simp [hshort, hfew])
      by_cases hcap : cap < getBe bs₁ 0 2
      · exact absurd h₁ (by simp [hshort, hfew, hcap])
      rw [if_neg hshort, if_neg hfew, if_neg hcap] at h₁
      obtain ⟨⟨members, bs₂⟩, e₂, h₂⟩ := bind_eq_ok.1 h₁
      obtain ⟨hlen, hbs, hms, hasc, -⟩ := takeMembers_some (orMalformed_ok.1 e₂)
      obtain ⟨rfl, rfl⟩ := Prod.mk.inj (Except.ok.inj h₂)
      have halt : k.toNat = kindAlt := by tauto
      have hcount : putBe 2 members.length ++ ((members.flatMap fun m => putName m.id) ++ bs₂) =
          bs₁ := by
        rw [hlen, putBe_getBe (by omega), ← hbs, List.drop_zero, List.take_append_drop]
      have hlt : members.length < 256 ^ 2 := hlen ▸ getBe_lt bs₁ 0 2
      have htwo : 2 ≤ members.length := by omega
      refine ⟨?_, ⟨⟨hdim, Nat.zero_le _, Nat.zero_le _, Nat.zero_le _⟩, .union halt htwo
        (Nat.le_of_lt_succ hlt) (fun m hm => (hms m hm).1) (fun m hm => (hms m hm).2) hasc⟩,
        ?_, ?_⟩
      · simp only [termBytes, UInt8.ofNat_toNat, if_neg hone, if_neg hspan, List.cons_append,
          List.append_assoc, hcount]
      · simp only [Term.spelt, if_neg hone, if_neg hspan]
      · exact hlen.trans_le (Nat.not_lt.1 hcap)

/-! ## One spelling for each meaning -/

theorem putBound_spelt (b : Bound) : putBound b.spelt = putBound b := by
  obtain ⟨_ | _ | ⟨x, xs⟩, i⟩ := b
  · rfl
  · rfl
  · by_cases hi : i = 0
    · simp [Bound.spelt, putBound, boundOpen, hi]
    · simp [Bound.spelt, putBound, boundOpen, hi]

@[simp] theorem termBytes_spelt (t : Term) : termBytes t.spelt = termBytes t := by
  by_cases hone : t.kind = kindPrefix
  · simp only [Term.spelt, termBytes, if_pos hone]
  · by_cases hspan : t.kind = kindRange
    · simp only [Term.spelt, termBytes, if_neg hone, if_pos hspan, putBound_spelt]
    · simp only [Term.spelt, termBytes, if_neg hone, if_neg hspan]

@[simp] theorem meaning_spelt (t : Term) : t.spelt.meaning = t.meaning := by
  by_cases hone : t.kind = kindPrefix
  · simp only [Term.spelt, Term.meaning, if_pos hone]
  · by_cases hspan : t.kind = kindRange
    · simp only [Term.spelt, Term.meaning, if_neg hone, if_pos hspan, Bound.meaning_spelt]
    · simp only [Term.spelt, Term.meaning, if_neg hone, if_neg hspan]

theorem nodup_of_ascending {α : Type} {rank : α → Bytes} {l : List α} (h : Lib.Ascending rank l) :
    l.Nodup := by
  refine h.imp fun hab => ?_
  rintro rfl
  exact absurd ((Std.ReflCmp.compare_self : compare _ _ = .eq).symm.trans hab) (by decide)

/-- There is one ascending list of some members. -/
theorem members_eq {ms ns : List Node} (hm : Lib.Ascending (fun m : Node => putName m.id) ms)
    (hn : Lib.Ascending (fun m : Node => putName m.id) ns) (h : ms.toFinset = ns.toFinset) :
    ms = ns := by
  have hanti : Std.Antisymm fun a b : Node => compare (putName a.id) (putName b.id) = .lt := by
    refine ⟨fun a b hab hba => ?_⟩
    have hgt : compare (putName b.id) (putName a.id) = .gt := Std.OrientedCmp.gt_iff_lt.2 hab
    exact absurd (hba.symm.trans hgt) (by decide)
  refine List.Perm.eq_of_pairwise' hm hn ?_
  refine (List.perm_ext_iff_of_nodup (nodup_of_ascending hm) (nodup_of_ascending hn)).2 fun m => ?_
  rw [← List.mem_toFinset, h, List.mem_toFinset]

theorem spelt_beneath (h : t.kind = kindPrefix) :
    t.spelt = ⟨kindPrefix, t.node, ⟨none, 0⟩, ⟨none, 0⟩, []⟩ := by
  rw [Term.spelt, if_pos h, h]
  rfl

theorem spelt_span (h : t.kind = kindRange) :
    t.spelt = ⟨kindRange, t.node, t.lo.spelt, t.hi.spelt, []⟩ := by
  rw [Term.spelt, if_neg (by rw [h]; decide), if_pos h, h]
  rfl

theorem spelt_union (h : t.kind = kindAlt) :
    t.spelt = ⟨kindAlt, ⟨t.node.dim, []⟩, ⟨none, 0⟩, ⟨none, 0⟩, t.members⟩ := by
  rw [Term.spelt, if_neg (by rw [h]; decide), if_neg (by rw [h]; decide), h]
  rfl

theorem meaning_beneath (h : t.kind = kindPrefix) : t.meaning = .beneath t.node :=
  if_pos h

theorem meaning_span (h : t.kind = kindRange) :
    t.meaning = .span t.node t.lo.meaning t.hi.meaning := by
  rw [Term.meaning, if_neg (by rw [h]; decide), if_pos h]

/-- An alternation of several members in order says that it is of them. -/
theorem meaning_union (h : t.kind = kindAlt) (two : 2 ≤ t.members.length)
    (ascending : Lib.Ascending (fun m : Node => putName m.id) t.members) :
    t.meaning = .union t.members.toFinset := by
  rw [Term.meaning, if_neg (by rw [h]; decide), if_neg (by rw [h]; decide), altMeaning,
    (nodup_of_ascending ascending).dedup]
  split
  next m hm =>
    rw [hm] at two
    exact absurd two (by simp)
  · rfl

/-- **Terms of one meaning are read as the same term.** -/
theorem spelt_eq (ht : t.Writable) (hu : u.Writable) (h : t.meaning = u.meaning) :
    t.spelt = u.spelt := by
  obtain ⟨-, ht⟩ := ht
  obtain ⟨-, hu⟩ := hu
  cases ht with
  | beneath kind id =>
    rw [meaning_beneath kind] at h
    cases hu with
    | beneath kind' id' =>
      rw [meaning_beneath kind'] at h
      rw [spelt_beneath kind, spelt_beneath kind', Meaning.beneath.inj h]
    | span kind' => exact absurd (h.trans (meaning_span kind')) (by simp)
    | union kind' two' _ _ _ asc' =>
      exact absurd (h.trans (meaning_union kind' two' asc')) (by simp)
  | span kind id lo hi =>
    rw [meaning_span kind] at h
    cases hu with
    | beneath kind' => exact absurd (h.trans (meaning_beneath kind')) (by simp)
    | span kind' id' lo' hi' =>
      rw [meaning_span kind'] at h
      obtain ⟨hnode, hlo, hhi⟩ := Meaning.span.inj h
      rw [spelt_span kind, spelt_span kind', hnode, Bound.spelt_eq hlo, Bound.spelt_eq hhi]
    | union kind' two' _ _ _ asc' =>
      exact absurd (h.trans (meaning_union kind' two' asc')) (by simp)
  | union kind two few ids dims asc =>
    rw [meaning_union kind two asc] at h
    cases hu with
    | beneath kind' => exact absurd (h.trans (meaning_beneath kind')) (by simp)
    | span kind' => exact absurd (h.trans (meaning_span kind')) (by simp)
    | union kind' two' few' ids' dims' asc' =>
      rw [meaning_union kind' two' asc'] at h
      have hms : t.members = u.members := members_eq asc asc' (Meaning.union.inj h)
      have hdim : t.node.dim = u.node.dim := by
        obtain ⟨m, hm⟩ := List.exists_mem_of_length_pos (Nat.lt_of_lt_of_le Nat.zero_lt_two two)
        rw [← dims m hm, dims' m (hms ▸ hm)]
      rw [spelt_union kind, spelt_union kind', hms, hdim]

/-- **Terms have one encoding where they have one meaning.** -/
theorem termBytes_eq_iff (ht : t.Writable) (hu : u.Writable) :
    termBytes t = termBytes u ↔ t.meaning = u.meaning := by
  constructor
  · intro h
    have ht' := takeTerm_termBytes ht (Nat.le_max_left _ u.spelt.members.length) []
    have hu' := takeTerm_termBytes hu (Nat.le_max_right t.spelt.members.length _) []
    rw [h, hu'] at ht'
    rw [← meaning_spelt t, ← (Prod.mk.inj (Except.ok.inj ht')).1, meaning_spelt]
  · intro h
    rw [← termBytes_spelt t, spelt_eq ht hu h, termBytes_spelt]

/-! ## Sides -/

/-- The terms of a side, each written above the one before. -/
structure Side (ts : List Term) : Prop where
  writable : ∀ t ∈ ts, t.Writable
  ascending : Lib.Ascending termBytes ts

theorem Side.tail (h : Side (t :: ts)) : Side ts :=
  ⟨fun u hu => h.writable u (List.mem_cons_of_mem _ hu), (List.pairwise_cons.1 h.ascending).2⟩

/-- A side as it is read is the same bytes. -/
theorem flatMap_spelt (ts : List Term) :
    (ts.map Term.spelt).flatMap termBytes = ts.flatMap termBytes := by
  rw [List.flatMap_map]
  exact congrArg (fun f => ts.flatMap f) (funext termBytes_spelt)

theorem Side.spelt (h : Side ts) : Side (ts.map Term.spelt) := by
  refine ⟨fun u hu => ?_, List.pairwise_map.2 (h.ascending.imp fun hab => by simpa using hab)⟩
  obtain ⟨t, ht, rfl⟩ := List.mem_map.1 hu
  exact (takeTerm_ok (takeTerm_termBytes (h.writable t ht) le_rfl [])).2.1

/-- How many members a side has, as it is read. -/
def memberCount (ts : List Term) : ℕ :=
  (ts.map fun t => t.spelt.members.length).sum

/-- What `here` of the source is: the bytes just taken. -/
theorem take_consumed (front rest : Bytes) :
    (front ++ rest).take ((front ++ rest).length - rest.length) = front := by
  rw [List.length_append, Nat.add_sub_cancel, List.take_left]

theorem not_any_of_lt {x : Bytes} (h : ∀ b ∈ c, compare b x = .lt) :
    ¬ (c.any fun b => decide (encCmp b x ≠ .lt)) = true := by
  intro hany
  obtain ⟨b, hb, hno⟩ := (Option.any_eq_true _ _).1 hany
  exact of_decide_eq_true hno ((encCmp_eq _ _).trans (h b hb))

theorem lt_of_not_any {x : Bytes} (h : ¬ (c.any fun b => decide (encCmp b x ≠ .lt)) = true)
    {b : Bytes} (hb : b ∈ c) : compare b x = .lt := by
  rw [← encCmp_eq]
  by_contra hno
  exact h ((Option.any_eq_true _ _).2 ⟨b, hb, decide_eq_true hno⟩)

/-- **A side written is read back.** -/
theorem takeSide_eq (cap : ℕ) (hs : Side ts) (hc : ∀ b ∈ c, ∀ t ∈ ts, compare b (termBytes t) = .lt)
    (hcap : memberCount ts ≤ cap) (rest : Bytes) :
    takeSide ts.length c cap (ts.flatMap termBytes ++ rest) =
      .ok (ts.map Term.spelt, cap - memberCount ts, rest) := by
  induction ts generalizing c cap with
  | nil => rfl
  | cons t ts ih =>
    have hsum : memberCount (t :: ts) = t.spelt.members.length + memberCount ts := by
      rw [memberCount, List.map_cons, List.sum_cons, memberCount]
    have ht := takeTerm_termBytes (h := hs.writable t List.mem_cons_self)
      (Nat.le_trans (Nat.le_add_right _ _) (hsum ▸ hcap)) (ts.flatMap termBytes ++ rest)
    have hrec := ih (cap - t.spelt.members.length) (c := some (termBytes t)) hs.tail
      (by simpa using (List.pairwise_cons.1 hs.ascending).1) (by omega)
    rw [List.length_cons, takeSide, List.flatMap_cons, List.append_assoc, ht]
    simp only [ok_bind, take_consumed]
    rw [if_neg (not_any_of_lt fun b hb => hc b hb t List.mem_cons_self), hrec, ok_bind, hsum,
      Nat.sub_sub, List.map_cons]

/-- **What is read is a side written.** -/
theorem takeSide_ok {n : ℕ} {cap cap' : ℕ} (h : takeSide n c cap bs = .ok (ts, cap', rest)) :
    ts.length = n ∧ bs = ts.flatMap termBytes ++ rest ∧ Side ts ∧ (∀ t ∈ ts, t.spelt = t) ∧
      ∀ b ∈ c, ∀ t ∈ ts, compare b (termBytes t) = .lt := by
  induction n generalizing c cap ts bs with
  | zero =>
    obtain ⟨rfl, h₁⟩ := Prod.mk.inj (Except.ok.inj h)
    obtain ⟨-, rfl⟩ := Prod.mk.inj h₁
    exact ⟨rfl, rfl, ⟨by simp, List.Pairwise.nil⟩, by simp, by simp⟩
  | succ n ih =>
    rw [takeSide] at h
    obtain ⟨⟨t, r⟩, ht, h₁⟩ := bind_eq_ok.1 h
    obtain ⟨rfl, hw, hspelt, -⟩ := takeTerm_ok ht
    simp only [take_consumed] at h₁
    split_ifs at h₁ with hbefore
    obtain ⟨⟨ts', cap'', r'⟩, hrec, h₂⟩ := bind_eq_ok.1 h₁
    obtain ⟨rfl, h₃⟩ := Prod.mk.inj (Except.ok.inj h₂)
    obtain ⟨rfl, rfl⟩ := Prod.mk.inj h₃
    obtain ⟨hlen, rfl, hside, hall, hlt⟩ := ih hrec
    have hhead : ∀ u ∈ ts', compare (termBytes t) (termBytes u) = .lt := hlt _ rfl
    refine ⟨by rw [List.length_cons, hlen], by simp,
      ⟨List.forall_mem_cons.2 ⟨hw, hside.writable⟩,
        List.pairwise_cons.2 ⟨hhead, hside.ascending⟩⟩,
      List.forall_mem_cons.2 ⟨hspelt, hall⟩, fun b hb u hu => ?_⟩
    have hbt := lt_of_not_any hbefore hb
    rcases List.mem_cons.1 hu with rfl | hu
    · exact hbt
    · exact Std.TransCmp.lt_trans hbt (hhead u hu)

/-- Two sides have a term in common. -/
def Common (ps ns : List Term) : Prop :=
  ∃ p ∈ ps, ∃ n ∈ ns, termBytes p = termBytes n

theorem Common.symm {ps ns : List Term} (h : Common ps ns) : Common ns ps := by
  obtain ⟨p, hp, n, hn, heq⟩ := h
  exact ⟨n, hn, p, hp, heq.symm⟩

/-- A term below the other side is in common with nothing. -/
theorem Side.common_cons {p n : Term} {ps ns : List Term} (hn : Side (n :: ns))
    (h : compare (termBytes p) (termBytes n) = .lt) :
    Common (p :: ps) (n :: ns) ↔ Common ps (n :: ns) := by
  refine ⟨fun ⟨q, hq, m, hm, heq⟩ => ?_,
    fun ⟨q, hq, hrest⟩ => ⟨q, List.mem_cons_of_mem _ hq, hrest⟩⟩
  rcases List.mem_cons.1 hq with rfl | hq
  · have hlt : compare (termBytes q) (termBytes m) = .lt := by
      rcases List.mem_cons.1 hm with rfl | hm
      · exact h
      · exact Std.TransCmp.lt_trans h ((List.pairwise_cons.1 hn.ascending).1 m hm)
    rw [heq] at hlt
    exact absurd ((Std.ReflCmp.compare_self : compare _ _ = .eq).symm.trans hlt) (by decide)
  · exact ⟨q, hq, m, hm, heq⟩

/-- **The walk meets what the sides have in common**, and nothing else. -/
theorem meet_eq {ps ns : List Term} (hp : Side ps) (hn : Side ns) (a b : Bytes) :
    (Common ps ns → meet ps (ps.flatMap termBytes ++ a) ns (ns.flatMap termBytes ++ b) =
      .error .bothSides) ∧
    (¬ Common ps ns → meet ps (ps.flatMap termBytes ++ a) ns (ns.flatMap termBytes ++ b) =
      .ok ()) := by
  induction hlen : ps.length + ns.length using Nat.strongRecOn generalizing ps ns with
  | ind m ih =>
    cases ps with
    | nil => exact ⟨fun ⟨p, h, _⟩ => absurd h (by simp), fun _ => by rw [meet]; simp⟩
    | cons p ps =>
      cases ns with
      | nil => exact ⟨fun ⟨_, _, n, h, _⟩ => absurd h (by simp), fun _ => by rw [meet]; simp⟩
      | cons n ns =>
        have hfront : ∀ (t : Term) (ts : List Term) (x : Bytes),
            ((t :: ts).flatMap termBytes ++ x).take t.extent = termBytes t ∧
            ((t :: ts).flatMap termBytes ++ x).drop t.extent = ts.flatMap termBytes ++ x := by
          intro t ts x
          rw [List.flatMap_cons, List.append_assoc]
          exact ⟨List.take_left' (length_termBytes t), List.drop_left' (length_termBytes t)⟩
        rw [meet, termSize_eq (hp.writable p List.mem_cons_self),
          termSize_eq (hn.writable n List.mem_cons_self)]
        simp only [hfront, encCmp_eq]
        cases hc : compare (termBytes p) (termBytes n) with
        | eq =>
          have heq : termBytes p = termBytes n := Std.LawfulEqCmp.compare_eq_iff_eq.1 hc
          have hcommon : Common (p :: ps) (n :: ns) :=
            ⟨p, List.mem_cons_self, n, List.mem_cons_self, heq⟩
          exact ⟨fun _ => rfl, fun hno => absurd hcommon hno⟩
        | lt =>
          rw [hn.common_cons hc]
          exact ih _ (by simp only [List.length_cons] at hlen ⊢; omega) hp.tail hn rfl
        | gt =>
          have hswap : Common (p :: ps) (n :: ns) ↔ Common (p :: ps) ns :=
            ⟨fun h => ((hp.common_cons (Std.OrientedCmp.gt_iff_lt.1 hc)).1 h.symm).symm,
              fun h => ((hp.common_cons (Std.OrientedCmp.gt_iff_lt.1 hc)).2 h.symm).symm⟩
          rw [hswap]
          exact ih _ (by simp only [List.length_cons] at hlen ⊢; omega) hp hn.tail rfl

/-! ## Expressions -/

/-- What `fzn_facet_expr_encode` writes. -/
def exprBytes (e : Expr) : Bytes :=
  objectExpr :: (putBe 2 e.pos.length ++ (putBe 2 e.neg.length ++
    (e.pos.flatMap termBytes ++ e.neg.flatMap termBytes)))

/-- Two sides that can be written, something asked for and nothing taken away of it. -/
structure Expr.Canonical (e : Expr) : Prop where
  pos : Side e.pos
  neg : Side e.neg
  some_pos : e.pos ≠ []
  pos_few : e.pos.length ≤ 0xffff
  neg_few : e.neg.length ≤ 0xffff
  apart : ¬ Common e.pos e.neg

variable {e : Expr} {posCap negCap altCap : ℕ}

/-- **An expression written is read back.** -/
theorem exprDecode_exprBytes (h : e.Canonical) (hpos : e.pos.length ≤ posCap)
    (hneg : e.neg.length ≤ negCap) (halt : memberCount e.pos + memberCount e.neg ≤ altCap) :
    exprDecode (exprBytes e) posCap negCap altCap =
      .ok ⟨e.pos.map Term.spelt, e.neg.map Term.spelt⟩ := by
  have h₁ : (exprBytes e).drop 1 = putBe 2 e.pos.length ++ (putBe 2 e.neg.length ++
      (e.pos.flatMap termBytes ++ e.neg.flatMap termBytes)) := rfl
  have h₃ := drop_next h₁ (m := 3) (by rw [length_putBe])
  have h₅ := drop_next h₃ (m := exprHeadLen) (by rw [length_putBe]; rfl)
  have hmeet := meet_eq h.pos.spelt h.neg.spelt (e.neg.flatMap termBytes) []
  have hapart : ¬ Common (e.pos.map Term.spelt) (e.neg.map Term.spelt) := by
    rintro ⟨p, hp, n, hn, heq⟩
    obtain ⟨p, hp', rfl⟩ := List.mem_map.1 hp
    obtain ⟨n, hn', rfl⟩ := List.mem_map.1 hn
    exact h.apart ⟨p, hp', n, hn', by simpa using heq⟩
  have hposRead := takeSide_eq altCap (c := none) h.pos (by simp)
    (Nat.le_trans (Nat.le_add_right _ _) halt) (e.neg.flatMap termBytes)
  have hnegRead := takeSide_eq (altCap - memberCount e.pos) (c := none) h.neg (by simp)
    (by omega) []
  rw [List.append_nil] at hnegRead
  rw [flatMap_spelt, flatMap_spelt, List.append_nil] at hmeet
  have hlen : ¬ (exprBytes e).length < exprHeadLen := by
    simp [exprBytes, exprHeadLen]
    omega
  have hroom : ¬ (posCap < e.pos.length ∨ negCap < e.neg.length) := by omega
  have hobject : ¬ (exprBytes e).getD 0 0 ≠ objectExpr := not_not.2 rfl
  rw [exprDecode, if_neg hlen, if_neg hobject, getBe_of_drop h₁ (Nat.lt_succ_of_le h.pos_few),
    getBe_of_drop h₃ (Nat.lt_succ_of_le h.neg_few), h₅]
  simp only
  rw [if_neg (by simpa using h.some_pos), if_neg hroom, hposRead]
  simp only [ok_bind, hnegRead, hmeet.2 hapart]
  rfl

theorem body_eq {body : Bytes} (hlen : exprHeadLen ≤ body.length)
    (hobject : body.getD 0 0 = objectExpr) :
    body = objectExpr :: (putBe 2 (getBe body 1 2) ++ (putBe 2 (getBe body 3 2) ++
      body.drop exprHeadLen)) := by
  cases body with
  | nil => exact absurd hlen (by decide)
  | cons b bs =>
    obtain rfl : b = objectExpr := hobject
    simp only [exprHeadLen, List.length_cons] at hlen ⊢
    rw [putBe_getBe (by rw [List.length_cons]; omega),
      putBe_getBe (by rw [List.length_cons]; omega)]
    simp only [List.drop_succ_cons, List.drop_zero]
    rw [← List.drop_drop (i := 2) (j := 2), List.take_append_drop, List.take_append_drop]

/-- **What is read is an expression written.** -/
theorem exprDecode_ok {body : Bytes} (h : exprDecode body posCap negCap altCap = .ok e) :
    body = exprBytes e ∧ e.Canonical ∧ ∀ t ∈ e.pos ++ e.neg, t.spelt = t := by
  rw [exprDecode] at h
  split_ifs at h with hlen hobject
  simp only at h
  split_ifs at h with hsome hroom
  obtain ⟨⟨pos, cap, negAt⟩, hpos, h₁⟩ := bind_eq_ok.1 h
  obtain ⟨⟨neg, cap', rest⟩, hneg, h₂⟩ := bind_eq_ok.1 h₁
  obtain ⟨hposLen, hposAt, hposSide, hposSpelt, -⟩ := takeSide_ok hpos
  obtain ⟨hnegLen, rfl, hnegSide, hnegSpelt, -⟩ := takeSide_ok hneg
  simp only at h₂
  split_ifs at h₂ with hrest
  obtain ⟨_, hmeet, h₃⟩ := bind_eq_ok.1 h₂
  obtain rfl := Except.ok.inj h₃
  rw [hposAt] at hmeet
  have hapart : ¬ Common pos neg := by
    intro hcommon
    rw [(meet_eq hposSide hnegSide _ _).1 hcommon] at hmeet
    exact absurd hmeet (by simp)
  have hposLt := getBe_lt body 1 2
  have hnegLt := getBe_lt body 3 2
  refine ⟨?_, ⟨hposSide, hnegSide, ?_, ?_, ?_, hapart⟩, ?_⟩
  · rw [body_eq (Nat.not_lt.1 hlen) (not_not.1 hobject), hposAt, ← hposLen, ← hnegLen]
    simp [exprBytes, List.length_eq_zero_iff.1 (not_not.1 hrest)]
  · rintro rfl
    exact hsome hposLen.symm
  · exact hposLen.trans_le (Nat.le_of_lt_succ hposLt)
  · exact hnegLen.trans_le (Nat.le_of_lt_succ hnegLt)
  · intro t ht
    exact (List.mem_append.1 ht).elim (hposSpelt t) (hnegSpelt t)

end Facet
end Fuzznet
