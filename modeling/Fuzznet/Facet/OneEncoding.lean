/-
# One encoding for each expression

`fzn_facet_normalize`, `fzn_facet_expr_sort` and `fzn_facet_expr_encode` in turn, over
expressions `fzn_facet_validate` accepts and whose names fit.  Normalising drops what is spelt
twice in one way, sorting what comes out twice, and what is left is one term for each meaning,
ascending (`sortSide_spec`).  So the bytes are a matter of the meanings (`bytes_eq_of_meanings`),
and as they are read back to terms of those meanings, of nothing else.

A bound that has an id of no bytes is open as `fzn_facet_term_eq` sees it and is refused by the
encoder; its name is none of 1 to 255 bytes, so no such expression is meant here.
-/

import Mathlib.Algebra.Order.BigOperators.Group.List
import Fuzznet.Facet.Decode

namespace Fuzznet
namespace Facet

open Wire

/-- The three calls in turn. -/
def encoding (e : Expr) (scratchCap cap : ℕ) : Except Err Bytes := do
  let sorted ← exprSort (normalize e) scratchCap
  exprEncode sorted cap

/-- A term whose names fit: of 1 to 255 bytes where its kind uses them, members of the
dimension the term names, and no more of them than are counted. -/
structure Term.Fair (t : Term) : Prop where
  fits : t.Fits
  id : t.kind ≠ kindAlt → Named t.node.id
  bounds : t.kind = kindRange → (∀ id ∈ t.lo.id, Named id) ∧ ∀ id ∈ t.hi.id, Named id
  members : t.kind = kindAlt →
    t.members.length ≤ 0xffff ∧ ∀ m ∈ t.members, Named m.id ∧ m.dim = t.node.dim

/-- An expression that is accepted and whose names and counts fit. -/
structure Expr.Fair (e : Expr) : Prop where
  accepted : validate e = .ok ()
  terms : ∀ t ∈ e.pos ++ e.neg, t.Fair
  pos_few : e.pos.length ≤ 0xffff
  neg_few : e.neg.length ≤ 0xffff

/-- How many bytes some terms take. -/
def extents (ts : List Term) : ℕ :=
  (ts.map Term.extent).sum

/-- Scratch for two encodings and a buffer for all of them. -/
structure Expr.Room (e : Expr) (scratchCap cap : ℕ) : Prop where
  scratch : ∀ t ∈ e.pos ++ e.neg, 2 * t.extent ≤ scratchCap
  buffer : exprHeadLen + extents (e.pos ++ e.neg) ≤ cap

variable {t u : Term} {ts us : List Term} {e : Expr}

/-! ## Encoding a side -/

theorem termEq_of_spelt (ht : t.Shape) (h : t.spelt = u.spelt) : termEq t u = true := by
  have hkind : ∀ v : Term, v.spelt.kind = v.kind := by
    intro v
    rw [Term.spelt]
    split_ifs <;> rfl
  have hsame : t.kind = u.kind := by rw [← hkind t, h, hkind u]
  have hbound : ∀ a b : Bound, a.spelt = b.spelt → boundEq a b = true := fun a b hab => by
    rw [boundEq_iff, ← Bound.meaning_spelt a, hab, Bound.meaning_spelt]
  rw [termEq, if_neg (not_not.2 hsame)]
  cases ht with
  | beneath kind =>
    rw [spelt_beneath kind, spelt_beneath (hsame ▸ kind)] at h
    rw [if_pos kind]
    exact decide_eq_true (Term.mk.inj h).2.1
  | span kind =>
    rw [spelt_span kind, spelt_span (hsame ▸ kind)] at h
    rw [if_neg (by rw [kind]; decide), if_pos kind, hbound _ _ (Term.mk.inj h).2.2.1,
      hbound _ _ (Term.mk.inj h).2.2.2.1, decide_eq_true (Term.mk.inj h).2.1]
    rfl
  | union kind =>
    rw [spelt_union kind, spelt_union (hsame ▸ kind)] at h
    rw [if_neg (by rw [kind]; decide), if_neg (by rw [kind]; decide), if_pos kind]
    have hms : t.members = u.members := (Term.mk.inj h).2.2.2.2
    simp [altMembersEq, hms]

/-- **Terms are called equal where their encodings are.** -/
theorem termEq_iff (ht : t.Writable) (hu : u.Writable) :
    termEq t u = true ↔ termBytes t = termBytes u := by
  rw [termBytes_eq_iff ht hu]
  exact ⟨meaning_of_termEq, fun h => termEq_of_spelt ht.shape (spelt_eq ht hu h)⟩

theorem Term.Writable.valid (h : t.Writable) : t.Valid := by
  obtain ⟨-, hshape⟩ := h
  cases hshape with
  | beneath kind => exact .beneath kind
  | span kind => exact .span kind
  | union kind two _ _ dims _ =>
    refine .union kind ?_ fun m hm n hn => (dims m hm).trans (dims n hn).symm
    rintro hnil
    rw [hnil] at two
    exact absurd two (by decide)

theorem extents_cons (t : Term) (ts : List Term) : extents (t :: ts) = t.extent + extents ts := by
  rw [extents, List.map_cons, List.sum_cons, extents]

theorem extents_append (ts us : List Term) : extents (ts ++ us) = extents ts + extents us := by
  rw [extents, List.map_append, List.sum_append, extents, extents]

theorem addSizes_eq (h : ∀ t ∈ ts, t.Writable) (n : ℕ) : addSizes n ts = .ok (n + extents ts) := by
  induction ts generalizing n with
  | nil => rfl
  | cons t ts ih =>
    rw [addSizes, termSize_eq (h t List.mem_cons_self), ok_bind,
      ih (fun u hu => h u (List.mem_cons_of_mem _ hu)), extents_cons, Nat.add_assoc]

theorem length_flatMap_termBytes (ts : List Term) : (ts.flatMap termBytes).length = extents ts := by
  rw [List.length_flatMap, extents]
  exact congrArg List.sum (List.map_congr_left fun t _ => length_termBytes t)

theorem encodeSide_eq {c : Option Bytes} {room : ℕ} (hs : Side ts)
    (hc : ∀ b ∈ c, ∀ t ∈ ts, compare b (termBytes t) = .lt) (hroom : extents ts ≤ room) :
    encodeSide c ts room = .ok (ts.flatMap termBytes) := by
  induction ts generalizing c room with
  | nil => rfl
  | cons t ts ih =>
    rw [extents_cons] at hroom
    rw [encodeSide, termEncode_eq (hs.writable t List.mem_cons_self) (by omega), ok_bind,
      if_neg (not_any_of_lt fun b hb => hc b hb t List.mem_cons_self),
      ih hs.tail (by simpa using (List.pairwise_cons.1 hs.ascending).1)
        (by rw [length_termBytes]; omega), ok_bind, List.flatMap_cons]

/-- **What `fzn_facet_expr_encode` does** with sides in order and room. -/
theorem exprEncode_eq {cap : ℕ} (hp : Side e.pos) (hn : Side e.neg) (hsome : e.pos ≠ [])
    (hpos : e.pos.length ≤ 0xffff) (hneg : e.neg.length ≤ 0xffff)
    (hcap : exprHeadLen + extents (e.pos ++ e.neg) ≤ cap) :
    (Common e.pos e.neg → exprEncode e cap = .error .bothSides) ∧
      (¬ Common e.pos e.neg → exprEncode e cap = .ok (exprBytes e)) := by
  have hw : ∀ t ∈ e.pos ++ e.neg, t.Writable := fun t ht =>
    (List.mem_append.1 ht).elim (hp.writable t) (hn.writable t)
  have hany : (e.pos.any fun p => e.neg.any (termEq p)) = true ↔ Common e.pos e.neg := by
    simp only [List.any_eq_true, Common]
    refine exists_congr fun p => and_congr_right fun hpm => exists_congr fun n => and_congr_right
      fun hnm => termEq_iff (hp.writable p hpm) (hn.writable n hnm)
  rw [exprEncode, validate_eq hsome fun t ht => (hw t ht).valid]
  refine ⟨fun h => by rw [if_pos (hany.2 h)]; rfl, fun h => ?_⟩
  rw [extents_append] at hcap
  rw [if_neg (mt hany.1 h), ok_bind, if_neg (by omega), addSizes_eq hw, ok_bind,
    if_neg (by rw [extents_append]; omega), encodeSide_eq (c := none) hp (by simp) (by omega),
    ok_bind, encodeSide_eq (c := none) hn (by simp) (by rw [length_flatMap_termBytes]; omega), ok_bind,
    exprBytes]
  simp

/-! ## Sorting a side -/

theorem sum_map_le_of_subperm {α : Type} {l l' : List α} (f : α → ℕ) (h : l.Subperm l') :
    (l.map f).sum ≤ (l'.map f).sum := by
  obtain ⟨k, hperm, hsub⟩ := h
  rw [← (hperm.map f).sum_nat]
  clear hperm
  induction hsub with
  | slnil => exact le_rfl
  | cons a _ ih =>
    rw [List.map_cons, List.sum_cons]
    omega
  | cons_cons a _ ih =>
    rw [List.map_cons, List.map_cons, List.sum_cons, List.sum_cons]
    omega

/-- **The members sorted** are the members there were. -/
theorem sortMembers_spec {ms : List Node} {dim : Bytes}
    (h : ∀ m ∈ ms, Named m.id ∧ m.dim = dim) :
    (sortMembers ms).Subperm ms ∧
      Lib.Ascending (fun m : Node => putName m.id) (sortMembers ms) ∧
      (sortMembers ms).toFinset = ms.toFinset := by
  have hcmp : ∀ a ∈ ms, ∀ b ∈ ms,
      (pure (memberCmp a b) : Id Ordering) = pure (compare (putName a.id) (putName b.id)) :=
    fun a ha b hb => congrArg pure (memberCmp_eq (h a ha).1.2 (h b hb).1.2)
  obtain ⟨s, hs, hsub, hasc, hall⟩ := @Lib.sortDedup_eq Node Bytes Id _
    (fun a b => pure (memberCmp a b)) _ (fun m => putName m.id) _ _ _ ms hcmp
  have hsort : sortMembers ms = s := hs
  rw [hsort]
  refine ⟨hsub, hasc, Finset.ext fun m => ?_⟩
  rw [List.mem_toFinset, List.mem_toFinset]
  refine ⟨fun hm => hsub.subset hm, fun hm => ?_⟩
  obtain ⟨n, hn, hname⟩ := hall m hm
  have hid : n.id = m.id := (List.cons.inj hname).2
  have hdim : n.dim = m.dim := (h n (hsub.subset hn)).2.trans (h m hm).2.symm
  obtain ⟨nd, ni⟩ := n
  obtain rfl : nd = m.dim := hdim
  obtain rfl : ni = m.id := hid
  exact hn

theorem collapse_of_one {m : Node} (halt : t.kind = kindAlt) (hm : t.members = [m]) :
    collapse t = { t with kind := kindPrefix, node := m, members := [] } := by
  rw [collapse, hm]
  exact if_pos halt

theorem collapse_of_ne (h : ¬ (t.kind = kindAlt ∧ t.members.length = 1)) : collapse t = t := by
  rw [collapse]
  split
  next m hm => exact if_neg fun halt => h ⟨halt, by rw [hm]; rfl⟩
  · rfl

/-- A term of the shapes it may have, or of one member yet. -/
theorem Term.Fair.collapse (h : t.Fair) :
    (collapse t).Fair ∧ (Facet.collapse t).extent ≤ t.extent := by
  by_cases hone : t.kind = kindAlt ∧ t.members.length = 1
  · obtain ⟨halt, hlen⟩ := hone
    obtain ⟨m, hm⟩ := List.length_eq_one_iff.1 hlen
    obtain ⟨hid, hdim⟩ := (h.members halt).2 m (by rw [hm]; exact List.mem_cons_self)
    rw [collapse_of_one halt hm]
    refine ⟨⟨⟨hdim ▸ h.fits.dim, hid.2, h.fits.lo, h.fits.hi⟩, fun _ => hid,
      fun hk => absurd (show kindPrefix = kindRange from hk) (by decide),
      fun hk => absurd (show kindPrefix = kindAlt from hk) (by decide)⟩, ?_⟩
    simp [Term.extent, halt, hm, hdim, kindPrefix, kindRange, kindAlt]
    omega
  · rw [collapse_of_ne hone]
    exact ⟨h, le_rfl⟩

theorem Term.Valid.collapse (h : t.Valid) : (collapse t).Valid := by
  by_cases hone : t.kind = kindAlt ∧ t.members.length = 1
  · obtain ⟨m, hm⟩ := List.length_eq_one_iff.1 hone.2
    rw [collapse_of_one hone.1 hm]
    exact .beneath rfl
  · rwa [collapse_of_ne hone]

/-- **A term sorted can be written**, means what it did and takes no more. -/
theorem sortTerm_spec (hf : t.Fair) (hv : t.Valid) :
    (sortTerm t).Writable ∧ (sortTerm t).meaning = t.meaning ∧ (sortTerm t).extent ≤ t.extent := by
  cases hv with
  | beneath kind =>
    rw [sortTerm, if_neg (by rw [kind]; decide)]
    exact ⟨⟨hf.fits, .beneath kind (hf.id (by rw [kind]; decide))⟩, rfl, le_rfl⟩
  | span kind =>
    rw [sortTerm, if_neg (by rw [kind]; decide)]
    exact ⟨⟨hf.fits, .span kind (hf.id (by rw [kind]; decide)) (hf.bounds kind).1
      (hf.bounds kind).2⟩, rfl, le_rfl⟩
  | union kind hsome =>
    obtain ⟨hfew, hms⟩ := hf.members kind
    obtain ⟨hsub, hasc, hset⟩ := sortMembers_spec hms
    have hms' : ∀ m ∈ sortMembers t.members, Named m.id ∧ m.dim = t.node.dim :=
      fun m hm => hms m (hsub.subset hm)
    have hne : 0 < (sortMembers t.members).length := by
      refine List.length_pos_iff.2 fun hnil => hsome ?_
      rw [hnil] at hset
      refine List.eq_nil_iff_forall_not_mem.2 fun m hm => ?_
      rw [← List.mem_toFinset, ← hset, List.mem_toFinset] at hm
      exact absurd hm (by simp)
    have hsum := sum_map_le_of_subperm (fun m : Node => 1 + m.id.length) hsub
    rw [sortTerm, if_pos kind]
    generalize hsorted : sortMembers t.members = ms at hsub hasc hset hms' hne hsum ⊢
    set s : Term := { t with members := ms } with hs
    have hkind : s.kind = kindAlt := kind
    have hfair : s.Fair :=
      ⟨⟨hf.fits.dim, hf.fits.id, hf.fits.lo, hf.fits.hi⟩, hf.id, hf.bounds,
        fun _ => ⟨hsub.length_le.trans hfew, hms'⟩⟩
    have hmeaning : s.meaning = t.meaning := by
      rw [Term.meaning, Term.meaning, altMeaning_congr hset]
    have hextent : s.extent ≤ t.extent := by
      simp only [Term.extent, kind, hs]
      simp only [kindAlt, kindPrefix, kindRange]
      simpa using hsum
    refine ⟨⟨hfair.collapse.1.fits, ?_⟩, (meaning_collapse _).trans hmeaning,
      hfair.collapse.2.trans hextent⟩
    by_cases hone : ms.length = 1
    · obtain ⟨m, hm⟩ := List.length_eq_one_iff.1 hone
      rw [collapse_of_one hkind hm]
      exact .beneath rfl (hms' m (by rw [hm]; exact List.mem_cons_self)).1
    · rw [collapse_of_ne fun h => hone h.2]
      have htwo : 2 ≤ ms.length := by omega
      exact .union hkind htwo (hsub.length_le.trans hfew) (fun m hm => (hms' m hm).1)
        (fun m hm => (hms' m hm).2) hasc

/-- A side sorted: one term for each meaning there was, ascending. -/
structure SortedFrom (ts ss : List Term) : Prop where
  side : Side ss
  meanings : meanings ss = meanings ts
  length : ss.length ≤ ts.length
  extents : extents ss ≤ extents ts

/-- **A side sorts to one term for each meaning.** -/
theorem sortSide_spec {scratchCap : ℕ} (hf : ∀ t ∈ ts, t.Fair) (hv : ∀ t ∈ ts, t.Valid)
    (hroom : ∀ t ∈ ts, 2 * t.extent ≤ scratchCap) :
    ∃ ss, sortSide scratchCap ts = .ok ss ∧ SortedFrom ts ss := by
  have hw : ∀ t ∈ ts.map sortTerm, t.Writable ∧ 2 * t.extent ≤ scratchCap := by
    intro t ht
    obtain ⟨u, hu, rfl⟩ := List.mem_map.1 ht
    obtain ⟨hwrite, -, hle⟩ := sortTerm_spec (hf u hu) (hv u hu)
    exact ⟨hwrite, by have := hroom u hu; omega⟩
  have hcmp : ∀ x ∈ ts.map sortTerm, ∀ y ∈ ts.map sortTerm,
      termCmp scratchCap x y = pure (compare (termBytes x) (termBytes y)) := by
    intro x hx y hy
    obtain ⟨hwx, hrx⟩ := hw x hx
    obtain ⟨hwy, hry⟩ := hw y hy
    rw [termCmp, termEncode_eq hwx (by omega), ok_bind, termEncode_eq hwy (by omega), ok_bind,
      encCmp_eq]
    rfl
  obtain ⟨ss, hss, hsub, hasc, hall⟩ := Lib.sortDedup_eq hcmp
  have hside : Side ss := ⟨fun t ht => (hw t (hsub.subset ht)).1, hasc⟩
  refine ⟨ss, hss, hside, ?_, hsub.length_le.trans_eq (List.length_map _), ?_⟩
  · ext m
    constructor
    · rintro ⟨s, hs, rfl⟩
      obtain ⟨t, ht, rfl⟩ := List.mem_map.1 (hsub.subset hs)
      exact ⟨t, ht, (sortTerm_spec (hf t ht) (hv t ht)).2.1.symm⟩
    · rintro ⟨t, ht, rfl⟩
      obtain ⟨s, hs, hbytes⟩ := hall (sortTerm t) (List.mem_map_of_mem ht)
      obtain ⟨hwrite, hmeaning, -⟩ := sortTerm_spec (hf t ht) (hv t ht)
      exact ⟨s, hs, ((termBytes_eq_iff (hside.writable s hs) hwrite).1 hbytes).trans hmeaning⟩
  · refine (sum_map_le_of_subperm Term.extent hsub).trans ?_
    rw [List.map_map]
    exact List.sum_le_sum fun t ht => (sortTerm_spec (hf t ht) (hv t ht)).2.2

/-- **A side normalised and sorted** is one term for each meaning. -/
theorem normalized_spec {scratchCap : ℕ} (hf : ∀ t ∈ ts, t.Fair) (hv : ∀ t ∈ ts, t.Valid)
    (hroom : ∀ t ∈ ts, 2 * t.extent ≤ scratchCap) :
    ∃ ss, sortSide scratchCap (normalizeSide ts) = .ok ss ∧ SortedFrom ts ss := by
  have hsub := dropRepeats_sublist (ts.map collapse)
  have hfrom : ∀ t ∈ normalizeSide ts, ∃ u ∈ ts, collapse u = t := fun t ht =>
    List.mem_map.1 (hsub.subset ht)
  obtain ⟨ss, hss, hsorted⟩ := @sortSide_spec (normalizeSide ts) scratchCap
    (fun t ht => by
      obtain ⟨u, hu, rfl⟩ := hfrom t ht
      exact (hf u hu).collapse.1)
    (fun t ht => by
      obtain ⟨u, hu, rfl⟩ := hfrom t ht
      exact (hv u hu).collapse)
    (fun t ht => by
      obtain ⟨u, hu, rfl⟩ := hfrom t ht
      have := hroom u hu
      have := (hf u hu).collapse.2
      omega)
  refine ⟨ss, hss, hsorted.side, hsorted.meanings.trans (meanings_normalizeSide ts),
    hsorted.length.trans (hsub.length_le.trans_eq (List.length_map _)), hsorted.extents.trans ?_⟩
  refine (sum_map_le_of_subperm Term.extent hsub.subperm).trans ?_
  rw [List.map_map]
  exact List.sum_le_sum fun t ht => (hf t ht).collapse.2

/-! ## The bytes are a matter of the meanings -/

/-- What two sides have in common is a meaning. -/
theorem common_iff {ps ns : List Term} (hp : Side ps) (hn : Side ns) :
    Common ps ns ↔ ∃ m, m ∈ meanings ps ∧ m ∈ meanings ns := by
  constructor
  · rintro ⟨p, hpm, n, hnm, heq⟩
    exact ⟨p.meaning, ⟨p, hpm, rfl⟩,
      ⟨n, hnm, ((termBytes_eq_iff (hp.writable p hpm) (hn.writable n hnm)).1 heq).symm⟩⟩
  · rintro ⟨m, ⟨p, hpm, rfl⟩, n, hnm, heq⟩
    exact ⟨p, hpm, n, hnm, (termBytes_eq_iff (hp.writable p hpm) (hn.writable n hnm)).2 heq.symm⟩

/-- **Sides of the same meanings have the same encodings.** -/
theorem side_eq_of_meanings (hs : Side ts) (hs' : Side us) (h : meanings ts = meanings us) :
    ts.map termBytes = us.map termBytes := by
  have hsub : ∀ {ts us : List Term}, Side ts → Side us → meanings ts = meanings us →
      ∀ k, k ∈ ts.map termBytes → k ∈ us.map termBytes := by
    intro ts us hs hs' h k hk
    obtain ⟨t, ht, rfl⟩ := List.mem_map.1 hk
    obtain ⟨u, hu, heq⟩ : t.meaning ∈ meanings us := h ▸ ⟨t, ht, rfl⟩
    exact List.mem_map.2 ⟨u, hu, (termBytes_eq_iff (hs'.writable u hu) (hs.writable t ht)).2 heq⟩
  exact Lib.ascending_unique hs.ascending hs'.ascending fun k =>
    ⟨hsub hs hs' h k, hsub hs' hs h.symm k⟩

theorem bytes_eq_of_meanings {s s' : Expr} (hp : Side s.pos) (hn : Side s.neg) (hp' : Side s'.pos)
    (hn' : Side s'.neg) (hpos : meanings s.pos = meanings s'.pos)
    (hneg : meanings s.neg = meanings s'.neg) : exprBytes s = exprBytes s' := by
  have hbytes := side_eq_of_meanings hp hp' hpos
  have hbytes' := side_eq_of_meanings hn hn' hneg
  have hlen : s.pos.length = s'.pos.length := by simpa using congrArg List.length hbytes
  have hlen' : s.neg.length = s'.neg.length := by simpa using congrArg List.length hbytes'
  rw [exprBytes, exprBytes, hlen, hlen', List.flatMap_def, List.flatMap_def, List.flatMap_def,
    List.flatMap_def, hbytes, hbytes']

/-- **What the three calls leave:** sides with one term for each meaning, and their bytes
unless they have one in common. -/
theorem encoding_eq {scratchCap cap : ℕ} (he : e.Fair) (hroom : e.Room scratchCap cap) :
    ∃ s : Expr, SortedFrom e.pos s.pos ∧ SortedFrom e.neg s.neg ∧ s.pos ≠ [] ∧
      (Common s.pos s.neg → encoding e scratchCap cap = .error .bothSides) ∧
      (¬ Common s.pos s.neg → encoding e scratchCap cap = .ok (exprBytes s)) := by
  obtain ⟨hsome, hvalid⟩ := valid_of_validate he.accepted
  have hpos : ∀ t ∈ e.pos, t ∈ e.pos ++ e.neg := fun t => List.mem_append_left _
  have hneg : ∀ t ∈ e.neg, t ∈ e.pos ++ e.neg := fun t => List.mem_append_right _
  obtain ⟨ps, hps, hp⟩ := normalized_spec (fun t ht => he.terms t (hpos t ht))
    (fun t ht => hvalid t (hpos t ht)) fun t ht => hroom.scratch t (hpos t ht)
  obtain ⟨ns, hns, hn⟩ := normalized_spec (fun t ht => he.terms t (hneg t ht))
    (fun t ht => hvalid t (hneg t ht)) fun t ht => hroom.scratch t (hneg t ht)
  obtain ⟨t, ht⟩ := List.exists_mem_of_ne_nil _ hsome
  have hscratch : ¬ scratchCap < 4 := by
    have hfit := hroom.scratch t (hpos t ht)
    have hextent : 2 ≤ t.extent := by
      rw [Term.extent]
      split_ifs <;> omega
    omega
  have hne : ps ≠ [] := by
    rintro rfl
    obtain ⟨u, hu, -⟩ : t.meaning ∈ meanings [] := hp.meanings ▸ ⟨t, ht, rfl⟩
    exact absurd hu (by simp)
  have hcap : exprHeadLen + extents (ps ++ ns) ≤ cap := by
    have hall := hroom.buffer
    have hle := hp.extents
    have hle' := hn.extents
    rw [extents_append] at hall ⊢
    omega
  have henc := exprEncode_eq (e := ⟨ps, ns⟩) hp.side hn.side hne (hp.length.trans he.pos_few)
    (hn.length.trans he.neg_few) hcap
  have hsort : exprSort (normalize e) scratchCap = .ok ⟨ps, ns⟩ := by
    rw [exprSort, if_neg hscratch, normalize, hps, ok_bind, hns]
    rfl
  refine ⟨⟨ps, ns⟩, hp, hn, hne, fun h => ?_, fun h => ?_⟩
  · rw [encoding, hsort]
    exact henc.1 h
  · rw [encoding, hsort]
    exact henc.2 h

/-- Every term read has a member for each two bytes at most. -/
theorem memberCount_le (h : Side ts) : memberCount ts ≤ extents ts := by
  refine List.sum_le_sum fun t ht => ?_
  obtain ⟨-, hshape⟩ := h.writable t ht
  cases hshape with
  | beneath kind => rw [spelt_beneath kind]; exact Nat.zero_le _
  | span kind => rw [spelt_span kind]; exact Nat.zero_le _
  | union kind =>
    have hmembers : t.members.length ≤ (t.members.map fun m => 1 + m.id.length).sum := by
      have hle := List.length_le_sum_of_one_le (t.members.map fun m => 1 + m.id.length)
        (by simp)
      rwa [List.length_map] at hle
    rw [spelt_union kind, Term.extent, if_neg (by rw [kind]; decide),
      if_neg (by rw [kind]; decide)]
    simp only
    omega

theorem Term.Writable.fair (h : t.Writable) : t.Fair := by
  obtain ⟨hfits, hshape⟩ := h
  cases hshape with
  | beneath kind id =>
    exact ⟨hfits, fun _ => id, fun hk => absurd (kind.symm.trans hk) (by decide),
      fun hk => absurd (kind.symm.trans hk) (by decide)⟩
  | span kind id lo hi =>
    exact ⟨hfits, fun _ => id, fun _ => ⟨lo, hi⟩,
      fun hk => absurd (kind.symm.trans hk) (by decide)⟩
  | union kind two few ids dims =>
    exact ⟨hfits, fun hk => absurd kind hk, fun hk => absurd (kind.symm.trans hk) (by decide),
      fun _ => ⟨few, fun m hm => ⟨ids m hm, dims m hm⟩⟩⟩

/-- What is read is accepted, and its names fit. -/
theorem Expr.Canonical.fair (h : e.Canonical) : e.Fair := by
  have hw : ∀ t ∈ e.pos ++ e.neg, t.Writable := fun t ht =>
    (List.mem_append.1 ht).elim (h.pos.writable t) (h.neg.writable t)
  have hapart : ¬ (e.pos.any fun p => e.neg.any (termEq p)) = true := by
    intro hany
    obtain ⟨p, hp, hpn⟩ := List.any_eq_true.1 hany
    obtain ⟨n, hn, heq⟩ := List.any_eq_true.1 hpn
    exact h.apart ⟨p, hp, n, hn, (termEq_iff (h.pos.writable p hp) (h.neg.writable n hn)).1 heq⟩
  refine ⟨?_, fun t ht => (hw t ht).fair, h.pos_few, h.neg_few⟩
  rw [validate_eq h.some_pos fun t ht => (hw t ht).valid, if_neg hapart]

theorem exists_room (e : Expr) : ∃ scratchCap cap, e.Room scratchCap cap := by
  refine ⟨2 * extents (e.pos ++ e.neg), _, fun t ht => ?_, le_rfl⟩
  exact Nat.mul_le_mul_left 2 (List.single_le_sum (fun _ _ => Nat.zero_le _) _
    (List.mem_map_of_mem ht))

theorem length_exprBytes (e : Expr) :
    (exprBytes e).length = exprHeadLen + extents (e.pos ++ e.neg) := by
  simp only [exprBytes, List.length_cons, List.length_append, length_putBe,
    length_flatMap_termBytes, extents_append, exprHeadLen]
  omega

theorem length_le_extents (ts : List Term) : ts.length ≤ extents ts := by
  have hle := List.length_le_sum_of_one_le (ts.map Term.extent) fun n hn => by
    obtain ⟨t, -, rfl⟩ := List.mem_map.1 hn
    rw [Term.extent]
    split_ifs <;> omega
  rwa [List.length_map] at hle

/-- Where the calls make bytes, they are those of sides that can be written. -/
theorem exprBytes_of_encoding {scratchCap cap : ℕ} {bs : Bytes} (he : e.Fair)
    (hroom : e.Room scratchCap cap) (h : encoding e scratchCap cap = .ok bs) :
    ∃ s : Expr, SortedFrom e.pos s.pos ∧ SortedFrom e.neg s.neg ∧ s.Canonical ∧
      bs = exprBytes s := by
  obtain ⟨s, hp, hn, hsome, hboth, hok⟩ := encoding_eq he hroom
  have hapart : ¬ Common s.pos s.neg := fun hcommon =>
    absurd ((hboth hcommon).symm.trans h) (by simp)
  exact ⟨s, hp, hn, ⟨hp.side, hn.side, hsome, hp.length.trans he.pos_few,
    hn.length.trans he.neg_few, hapart⟩, Except.ok.inj (h.symm.trans (hok hapart))⟩

/-- What can be written is read, with as much room as it has bytes. -/
theorem exprDecode_of_canonical {posCap negCap altCap : ℕ} (h : e.Canonical)
    (hpos : (exprBytes e).length ≤ posCap) (hneg : (exprBytes e).length ≤ negCap)
    (halt : (exprBytes e).length ≤ altCap) :
    exprDecode (exprBytes e) posCap negCap altCap =
      .ok ⟨e.pos.map Term.spelt, e.neg.map Term.spelt⟩ := by
  rw [length_exprBytes, extents_append] at hpos hneg halt
  have := length_le_extents e.pos
  have := length_le_extents e.neg
  have := memberCount_le h.pos
  have := memberCount_le h.neg
  exact exprDecode_exprBytes h (by omega) (by omega) (by omega)

theorem meanings_spelt (ts : List Term) : meanings (ts.map Term.spelt) = meanings ts := by
  ext m
  simp [meanings]

/-- **Sides that can be written have the same bytes where they have the same meanings.** -/
theorem exprBytes_eq_iff {s s' : Expr} (h : s.Canonical) (h' : s'.Canonical) :
    exprBytes s = exprBytes s' ↔
      meanings s.pos = meanings s'.pos ∧ meanings s.neg = meanings s'.neg := by
  refine ⟨fun heq => ?_, fun ⟨hpos, hneg⟩ =>
    bytes_eq_of_meanings h.pos h.neg h'.pos h'.neg hpos hneg⟩
  have hread := exprDecode_of_canonical h le_rfl le_rfl le_rfl
  rw [heq, exprDecode_of_canonical h' le_rfl le_rfl le_rfl] at hread
  obtain ⟨hpos, hneg⟩ := Expr.mk.inj (Except.ok.inj hread)
  rw [← meanings_spelt s.pos, ← hpos, ← meanings_spelt s.neg, ← hneg, meanings_spelt,
    meanings_spelt]
  exact ⟨rfl, rfl⟩

/-- **An expression has one encoding.**  Of an expression whose names and counts fit, the three
calls make bytes, unless something is asked for and taken away; the bytes of two expressions are
the same where their meanings are, side by side; what decodes, given room, is what some
expression encodes to; and what was decoded encodes to what it was decoded from. -/
theorem expr_one_encoding :
    (∀ (e : Expr) (scratchCap cap : ℕ), e.Fair → e.Room scratchCap cap →
      ((∃ m, m ∈ meanings e.pos ∧ m ∈ meanings e.neg) →
        encoding e scratchCap cap = .error .bothSides) ∧
      ((¬ ∃ m, m ∈ meanings e.pos ∧ m ∈ meanings e.neg) →
        ∃ bs, encoding e scratchCap cap = .ok bs)) ∧
    (∀ (e e' : Expr) (scratchCap cap scratchCap' cap' : ℕ) (bs bs' : Bytes), e.Fair →
      e.Room scratchCap cap → e'.Fair → e'.Room scratchCap' cap' →
      encoding e scratchCap cap = .ok bs → encoding e' scratchCap' cap' = .ok bs' →
      (bs = bs' ↔ meanings e.pos = meanings e'.pos ∧ meanings e.neg = meanings e'.neg)) ∧
    (∀ (body : Bytes) (posCap negCap altCap : ℕ), body.length ≤ posCap → body.length ≤ negCap →
      body.length ≤ altCap →
      ((∃ e, exprDecode body posCap negCap altCap = .ok e) ↔
        ∃ (e : Expr) (scratchCap cap : ℕ), e.Fair ∧ e.Room scratchCap cap ∧
          encoding e scratchCap cap = .ok body)) ∧
    ∀ (body : Bytes) (posCap negCap altCap : ℕ) (e : Expr) (cap : ℕ),
      exprDecode body posCap negCap altCap = .ok e → body.length ≤ cap →
      exprEncode e cap = .ok body := by
  refine ⟨fun e scratchCap cap he hroom => ?_, ?_,
    fun body posCap negCap altCap hpos hneg halt => ?_,
    fun body posCap negCap altCap e cap h hcap => ?_⟩
  · obtain ⟨s, hp, hn, -, hboth, hok⟩ := encoding_eq he hroom
    rw [← hp.meanings, ← hn.meanings, ← common_iff hp.side hn.side]
    exact ⟨hboth, fun h => ⟨_, hok h⟩⟩
  · intro e e' scratchCap cap scratchCap' cap' bs bs' he hroom he' hroom' h h'
    obtain ⟨s, hp, hn, hc, rfl⟩ := exprBytes_of_encoding he hroom h
    obtain ⟨s', hp', hn', hc', rfl⟩ := exprBytes_of_encoding he' hroom' h'
    rw [exprBytes_eq_iff hc hc', hp.meanings, hn.meanings, hp'.meanings, hn'.meanings]
  · constructor
    · rintro ⟨e, h⟩
      obtain ⟨rfl, hc, -⟩ := exprDecode_ok h
      obtain ⟨scratchCap, cap, hroom⟩ := exists_room e
      obtain ⟨s, hp, hn, hsome, -, hok⟩ := encoding_eq hc.fair hroom
      refine ⟨e, scratchCap, cap, hc.fair, hroom, ?_⟩
      have hapart : ¬ Common s.pos s.neg := by
        rw [common_iff hp.side hn.side, hp.meanings, hn.meanings, ← common_iff hc.pos hc.neg]
        exact hc.apart
      rw [hok hapart, bytes_eq_of_meanings hp.side hn.side hc.pos hc.neg hp.meanings hn.meanings]
    · rintro ⟨e, scratchCap, cap, he, hroom, h⟩
      obtain ⟨s, -, -, hc, rfl⟩ := exprBytes_of_encoding he hroom h
      exact ⟨_, exprDecode_of_canonical hc hpos hneg halt⟩
  · obtain ⟨rfl, hc, -⟩ := exprDecode_ok h
    exact (exprEncode_eq hc.pos hc.neg hc.some_pos hc.pos_few hc.neg_few
      (by rwa [← length_exprBytes])).2 hc.apart

/-- The alternation of some ids in dimension `d`. -/
def altOf (ids : List UInt8) : Term :=
  ⟨kindAlt, ⟨[100], []⟩, ⟨none, 0⟩, ⟨none, 0⟩, ids.map fun i => ⟨[100], [i]⟩⟩

theorem altOf_fair {ids : List UInt8} (h : ids.length ≤ 0xffff) : (altOf ids).Fair := by
  refine ⟨⟨⟨Nat.zero_lt_one, by simp [altOf, nameMax]⟩, Nat.zero_le _, Nat.zero_le _,
    Nat.zero_le _⟩, fun hk => absurd rfl hk,
    fun hk => absurd (show kindAlt = kindRange from hk) (by decide), fun _ => ⟨?_, fun m hm => ?_⟩⟩
  · simpa [altOf] using h
  · obtain ⟨i, -, rfl⟩ := List.mem_map.1 hm
    exact ⟨⟨Nat.zero_lt_one, by simp [nameMax]⟩, rfl⟩

/-- One member out of order and one twice: the same bytes as in order and once. -/
theorem expr_one_encoding_respelt : ∃ bs,
    encoding ⟨[altOf [2, 1, 2]], []⟩ 64 64 = .ok bs ∧
      encoding ⟨[altOf [1, 2]], []⟩ 64 64 = .ok bs := by
  obtain ⟨-, hsame, -, -⟩ := expr_one_encoding
  have hfair : ∀ ids : List UInt8, ids ≠ [] → ids.length ≤ 0xffff →
      (⟨[altOf ids], []⟩ : Expr).Fair := by
    intro ids hne hlen
    refine ⟨?_, by simpa using altOf_fair hlen, by simp, by simp⟩
    refine (validate_eq (by simp) fun t ht => ?_).trans (if_neg (by simp))
    obtain rfl : t = altOf ids := by simpa using ht
    exact .union rfl (by simpa [altOf] using hne) (by simp [altOf])
  have hroom : (⟨[altOf [2, 1, 2]], []⟩ : Expr).Room 64 64 := ⟨by decide, by decide⟩
  have hroom' : (⟨[altOf [1, 2]], []⟩ : Expr).Room 64 64 := ⟨by decide, by decide⟩
  have hmeaning : (altOf [2, 1, 2]).meaning = (altOf [1, 2]).meaning := by decide
  have hmeanings : meanings [altOf [2, 1, 2]] = meanings [altOf [1, 2]] := by
    simp [meanings, hmeaning]
  have heq := (hsame _ _ 64 64 64 64 _ _ (hfair [2, 1, 2] (by decide) (by decide)) hroom
    (hfair [1, 2] (by decide) (by decide)) hroom' rfl rfl).2 ⟨hmeanings, rfl⟩
  exact ⟨_, rfl, congrArg Except.ok heq.symm⟩

end Facet
end Fuzznet
