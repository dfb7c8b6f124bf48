/-
# The root's pass

`chain/revocation.c`: `root_pass`, and the loop of `fzn_revocation_act_stands`
that takes the root's undo in full.

`root_pass` reads the entries in the order they were stored and returns at the
first live entry of a root.  An entry below the floor raised so far is not
read, so a live root entry is passed over exactly when a later undo was met
before it.  `rootScan_false` and `rootScan_floor` say what the scan leaves in
any order; `undo`, the highest withdrawal among the root's entries, does not
depend on the order at all.
-/

import Fuzznet.Chain.Epochs
import Mathlib.Data.List.Perm.Basic

namespace Fuzznet
namespace Chain

open Wire

section

variable {s : RevocationStore} {h : HopQuestion} {rootKey : Option Key}

/-- An entry the root's pass reads when no undo is in its way. -/
def rootReads (s : RevocationStore) (h : HopQuestion) (rootKey : Option Key) (e : Revocation) :
    Bool :=
  counts s { h with floor := none } e && rootEntry s rootKey e

theorem rootScan_cons (e : Revocation) (es : List Revocation) (floor : Option UInt64) :
    rootScan s h rootKey (e :: es) floor =
      if counts s { h with floor := floor } e && rootEntry s rootKey e then
        if e.withdrawn then rootScan s h rootKey es (raiseFloor floor e.epoch) else (true, floor)
      else rootScan s h rootKey es floor :=
  rfl

/-- Under a floor the entries it undoes are not read. -/
theorem counts_floor (floor : Option UInt64) (e : Revocation) :
    counts s { h with floor := floor } e =
      (!undone floor e.epoch && counts s { h with floor := none } e) := by
  simp only [counts, entitled, undone, Option.any_none]
  cases floor.any fun f => decide (e.epoch ≤ f) <;> simp

theorem rootReads_floor (floor : Option UInt64) (e : Revocation) :
    (counts s { h with floor := floor } e && rootEntry s rootKey e) =
      (!undone floor e.epoch && rootReads s h rootKey e) := by
  rw [counts_floor, rootReads, Bool.and_assoc]

variable {floor : Option UInt64}

theorem undone_raiseFloor {epoch a : UInt64} :
    undone (raiseFloor floor epoch) a = (undone floor a || decide (a ≤ epoch)) := by
  unfold raiseFloor undone
  cases floor with
  | none => simp
  | some f =>
    simp only [Option.all_some, decide_eq_true_eq, Option.any_some]
    rw [Bool.eq_iff_iff]
    split_ifs with hlt
    · simp only [Option.any_some, Bool.or_eq_true, decide_eq_true_eq]
      exact ⟨Or.inr, fun h => h.elim
        (fun hle => UInt64.le_of_lt (UInt64.lt_of_le_of_lt hle hlt)) id⟩
    · simp only [Option.any_some, Bool.or_eq_true, decide_eq_true_eq]
      exact ⟨Or.inl, fun h => h.elim id
        fun hle => UInt64.le_trans hle (UInt64.not_lt.1 hlt)⟩

/-- An undo below the floor does not move it. -/
theorem raiseFloor_of_undone {epoch : UInt64} (hu : undone floor epoch = true) :
    raiseFloor floor epoch = floor := by
  cases floor with
  | none => simp [undone] at hu
  | some f =>
    have hle : epoch ≤ f := by simpa [undone] using hu
    simp [raiseFloor, UInt64.not_lt.2 hle]

theorem raiseFloor_comm (floor : Option UInt64) (a b : UInt64) :
    raiseFloor (raiseFloor floor a) b = raiseFloor (raiseFloor floor b) a := by
  cases floor with
  | none => simp only [raiseFloor, Option.all_none]; grind
  | some f => simp only [raiseFloor, Option.all_some]; grind

/-- The root's undo in full: the highest epoch a root's entry was withdrawn in. -/
def undo (s : RevocationStore) (h : HopQuestion) (rootKey : Option Key) (es : List Revocation)
    (floor : Option UInt64) : Option UInt64 :=
  es.foldl (fun floor e =>
    if rootReads s h rootKey e && e.withdrawn then raiseFloor floor e.epoch else floor) floor

theorem undo_cons (e : Revocation) (es : List Revocation) (floor : Option UInt64) :
    undo s h rootKey (e :: es) floor = undo s h rootKey es
      (if rootReads s h rootKey e && e.withdrawn then raiseFloor floor e.epoch else floor) :=
  rfl

/-- **The undo does not depend on the order of the entries.** -/
theorem undo_perm {es es' : List Revocation} (hp : es.Perm es') (floor : Option UInt64) :
    undo s h rootKey es floor = undo s h rootKey es' floor := by
  refine hp.foldl_eq' (fun a _ b _ f => ?_) floor
  split_ifs <;> first | rfl | exact raiseFloor_comm ..

/-- `fzn_revocation_act_stands` takes the undo in full. -/
theorem fullFloor_eq : fullFloor s h rootKey = undo s h rootKey s.entries none := by
  unfold fullFloor undo
  congr 1
  funext floor e
  rw [Bool.and_assoc, rootReads_floor]
  cases hu : undone floor e.epoch with
  | false => simp [Bool.and_comm]
  | true => simp [raiseFloor_of_undone hu]

/-- The undo covers the floor it started from and every withdrawal it met. -/
theorem undone_undo {es : List Revocation} {a : UInt64} (ha : undone floor a = true ∨
      ∃ w ∈ es, rootReads s h rootKey w = true ∧ w.withdrawn = true ∧ a ≤ w.epoch) :
    undone (undo s h rootKey es floor) a = true := by
  induction es generalizing floor with
  | nil => simpa [undo] using ha
  | cons e es ih =>
    rw [undo_cons]
    refine ih ?_
    rcases ha with ha | ⟨w, hw, hr, hww, hle⟩
    · left
      split_ifs
      · simp [undone_raiseFloor, ha]
      · exact ha
    · rcases List.mem_cons.1 hw with rfl | hw
      · left
        simp [hr, hww, undone_raiseFloor, hle]
      · exact Or.inr ⟨w, hw, hr, hww, hle⟩

/-- **A scan that met no live entry it could read** left the whole undo, and the
undo covers every live entry there is. -/
theorem rootScan_false {es : List Revocation} (hb : (rootScan s h rootKey es floor).1 = false) :
    (rootScan s h rootKey es floor).2 = undo s h rootKey es floor ∧
      ∀ l ∈ es, rootReads s h rootKey l = true → l.withdrawn = false →
        undone (undo s h rootKey es floor) l.epoch = true := by
  induction es generalizing floor with
  | nil => exact ⟨rfl, fun l hl => absurd hl List.not_mem_nil⟩
  | cons e es ih =>
    rw [rootScan_cons, rootReads_floor] at hb ⊢
    rw [undo_cons]
    by_cases hread : (!undone floor e.epoch && rootReads s h rootKey e) = true
    · simp only [Bool.and_eq_true, Bool.not_eq_true'] at hread
      rw [hread.1, hread.2] at hb ⊢
      cases hw : e.withdrawn with
      | false => simp [hw] at hb
      | true =>
        simp only [hw, Bool.not_false, Bool.and_self, if_true] at hb ⊢
        obtain ⟨heq, hlive⟩ := ih hb
        refine ⟨heq, fun l hl hr hlw => ?_⟩
        rcases List.mem_cons.1 hl with rfl | hl
        · simp [hw] at hlw
        · exact hlive l hl hr hlw
    · rw [if_neg hread] at hb ⊢
      obtain ⟨heq, hlive⟩ := ih hb
      -- What the scan passed over moves no floor: it is no root's, or it is undone.
      have hpast : rootReads s h rootKey e = true → undone floor e.epoch = true := fun hr => by
        by_contra hu
        exact hread (by simp [hr, hu])
      have hsame : (if rootReads s h rootKey e && e.withdrawn then raiseFloor floor e.epoch
          else floor) = floor := by
        split_ifs with hr
        · exact raiseFloor_of_undone (hpast (Bool.and_eq_true_iff.1 hr).1)
        · rfl
      rw [hsame]
      refine ⟨heq, fun l hl hr hlw => ?_⟩
      rcases List.mem_cons.1 hl with rfl | hl
      · exact undone_undo (Or.inl (hpast hr))
      · exact hlive l hl hr hlw

/-- A scan that stopped stopped at a live entry of a root, past the floor it
started from. -/
theorem rootScan_true {es : List Revocation} (hb : (rootScan s h rootKey es floor).1 = true) :
    ∃ l ∈ es, rootReads s h rootKey l = true ∧ l.withdrawn = false ∧
      undone floor l.epoch = false := by
  induction es generalizing floor with
  | nil => simp [rootScan, scanRoots] at hb
  | cons e es ih =>
    rw [rootScan_cons, rootReads_floor] at hb
    split_ifs at hb with hread hw
    · obtain ⟨l, hl, hr, hlw, hu⟩ := ih hb
      rw [undone_raiseFloor, Bool.or_eq_false_iff] at hu
      exact ⟨l, List.mem_cons_of_mem _ hl, hr, hlw, hu.1⟩
    · simp only [Bool.and_eq_true, Bool.not_eq_true'] at hread
      exact ⟨e, List.mem_cons_self, hread.2, by simpa using hw, hread.1⟩
    · obtain ⟨l, hl, h⟩ := ih hb
      exact ⟨l, List.mem_cons_of_mem _ hl, h⟩

/-- A scan lowers no floor. -/
theorem undone_rootScan (es : List Revocation) {a : UInt64} (ha : undone floor a = true) :
    undone (rootScan s h rootKey es floor).2 a = true := by
  induction es generalizing floor with
  | nil => exact ha
  | cons e es ih =>
    rw [rootScan_cons]
    split_ifs
    · exact ih (by simp [undone_raiseFloor, ha])
    · exact ha
    · exact ih ha

/-- The floor a scan leaves is the one it started from or an undo it met. -/
theorem rootScan_floor (s : RevocationStore) (h : HopQuestion) (rootKey : Option Key)
    (es : List Revocation) (floor : Option UInt64) :
    (rootScan s h rootKey es floor).2 = floor ∨ ∃ w ∈ es, rootReads s h rootKey w = true ∧
      w.withdrawn = true ∧ (rootScan s h rootKey es floor).2 = some w.epoch := by
  induction es generalizing floor with
  | nil => exact Or.inl rfl
  | cons e es ih =>
    rw [rootScan_cons, rootReads_floor]
    split_ifs with hread hw
    · simp only [Bool.and_eq_true, Bool.not_eq_true'] at hread
      rcases ih (raiseFloor floor e.epoch) with heq | ⟨w, hm, h⟩
      · refine Or.inr ⟨e, List.mem_cons_self, hread.2, hw, heq.trans ?_⟩
        unfold raiseFloor
        cases floor with
        | none => rfl
        | some f =>
          have hlt : ¬e.epoch ≤ f := by simpa [undone] using hread.1
          simp [UInt64.not_le.1 hlt]
      · exact Or.inr ⟨w, List.mem_cons_of_mem _ hm, h⟩
    · exact Or.inl rfl
    · rcases ih floor with heq | ⟨w, hm, h⟩
      · exact Or.inl heq
      · exact Or.inr ⟨w, List.mem_cons_of_mem _ hm, h⟩

/-- With a root to ask about, the root's pass is the scan. -/
theorem rootPass_eq_scan (hk : rootKey.isSome = true ∨ s.roots.isSome = true) :
    rootPass s h rootKey = rootScan s h rootKey s.entries none := by
  refine if_neg fun hnone => ?_
  rcases hk with hk | hk
  · simp [Option.isNone_iff_eq_none.1 hnone.1] at hk
  · simp [Option.isNone_iff_eq_none.1 hnone.2] at hk

/-- **An epoch past every undo the pass reads is not undone.** -/
theorem undone_rootPass {epoch : UInt64}
    (hundo : ∀ w ∈ s.entries, rootReads s h rootKey w = true → w.withdrawn = true →
      w.epoch < epoch) : undone (rootPass s h rootKey).2 epoch = false := by
  unfold rootPass
  split_ifs
  · rfl
  · rcases rootScan_floor s h rootKey s.entries none with heq | ⟨w, hw, hwr, hww, heq⟩
    · rw [heq]
      rfl
    · rw [heq]
      simp only [undone, Option.any_some, decide_eq_false_iff_not]
      exact UInt64.not_le.2 (hundo w hw hwr hww)

/-- **Where only roots count, a pass that stops nowhere frees the hop:** the undo
covers every vote there is. -/
theorem judgeHop_free_of_roots (hk : rootKey.isSome = true ∨ s.roots.isSome = true)
    (hcnt : ∀ e ∈ s.entries, counts s { h with floor := none } e = true →
      rootReads s h rootKey e = true)
    (hb : (rootScan s h rootKey s.entries none).1 = false) {q : ℕ} (hq : 0 < q) :
    judgeHop s h rootKey q = .free := by
  obtain ⟨hfl, hlive⟩ := rootScan_false hb
  have hzero : ∀ p, tally s { h with floor := undo s h rootKey s.entries none } p = 0 := fun p => by
    refine List.countP_eq_zero.2 fun e he hp => ?_
    rw [counts_floor] at hp
    simp only [Bool.and_eq_true, Bool.not_eq_true'] at hp
    obtain ⟨⟨hun, hc⟩, -⟩ := hp
    have hread := hcnt e he hc
    have hcov : undone (undo s h rootKey s.entries none) e.epoch = true := by
      cases hew : e.withdrawn with
      | false => exact hlive e he hread hew
      | true => exact undone_undo (Or.inr ⟨e, he, hread, hew, UInt64.le_refl _⟩)
    rw [hcov] at hun
    exact absurd hun (by simp)
  unfold judgeHop judgeVotes
  rw [rootPass_eq_scan hk, hb, hfl]
  simp only [hzero]
  rw [if_neg (by simp), if_neg (by omega), if_pos hq]

end

/-! ## A quorum of one is the plain rule

`judge_hop` says of itself: "At quorum 1 this is the old answer exactly: any live entry
revokes, and a latch at 1 is a live entry."

With a quorum of `0` or `1`, no admin capability and no root set, a hop is
revoked exactly when the chain's first grantor holds a live entry for it, or an
ancestor does in an epoch past the one the first grantor withdrew in
(`coversLinks_quorum_one`).  The latch never fires: with no live vote counted,
every vote of the open epoch has been withdrawn (`judgeVotes_one`). -/

variable {s : RevocationStore} {h : HopQuestion}

/-- **At a quorum of one the votes revoke exactly when one of them is live.** -/
theorem judgeVotes_one : (judgeVotes s h 1).revoked = decide (0 < tally s h fun w _ => !w) := by
  unfold judgeVotes
  split_ifs with hlive htotal hlatch
  · have hpos : 0 < tally s h fun w _ => !w := by omega
    simp [HopVerdict.revoked, hpos]
  · simp [HopVerdict.revoked, show ¬0 < tally s h fun w _ => !w by omega]
  · have hnone : ¬0 < tally s h fun w _ => !w := by omega
    -- No counted vote is live, so the votes cast in an epoch are the ones left in it.
    have hleft : tally s h (fun _ a => decide (a = openEpoch s h 1)) ≤
        tally s h fun w a => decide (a = openEpoch s h 1) && w := by
      refine List.countP_mono_left fun e he hp => ?_
      have hw : e.withdrawn = true := by
        by_contra hw
        refine hnone (List.countP_pos_iff.2 ⟨e, he, ?_⟩)
        simp only [Bool.and_eq_true] at hp ⊢
        exact ⟨hp.1, by simpa using hw⟩
      simpa [hw] using hp
    simp only [latchedIn, Bool.and_eq_true, decide_eq_true_eq] at hlatch
    omega
  · simp [HopVerdict.revoked, show ¬0 < tally s h fun w _ => !w by omega]

section OneRoot

variable {g₀ : Key} {es : List Revocation}

/-- Without a root set an entry the root's pass reads is the first grantor's own
for the pair. -/
theorem triple_of_rootEntry (hr : s.roots = none) {e : Revocation}
    (he : (counts s { h with floor := floor } e && rootEntry s (some g₀) e) = true) :
    e.triple = ⟨g₀, h.capability, h.grantee⟩ := by
  simp only [counts, rootEntry, hr, Bool.and_eq_true, decide_eq_true_eq, Option.any_some] at he
  obtain ⟨⟨⟨⟨hcap, hgr⟩, -⟩, -⟩, hiss⟩ := he
  rw [Revocation.triple, hcap, hgr, hiss]

/-- Without a root set the root's pass reads past entries of other triples. -/
theorem rootScan_other (hr : s.roots = none) (floor : Option UInt64)
    (hes : ∀ e ∈ es, e.triple ≠ ⟨g₀, h.capability, h.grantee⟩) :
    rootScan s h (some g₀) es floor = (false, floor) := by
  induction es with
  | nil => rfl
  | cons e es ih =>
    rw [rootScan_cons, if_neg fun hyes => hes e List.mem_cons_self (triple_of_rootEntry hr hyes)]
    exact ih fun e' he' => hes e' (List.mem_cons_of_mem _ he')

/-- Without a root set, and with one entry per triple, the root's pass is decided
by the first grantor's own entry. -/
theorem rootScan_eq (hr : s.roots = none) (ha : h.anyIssuer = false) (hg : g₀ ∈ h.grantors)
    (hn : (es.map Revocation.triple).Nodup) :
    rootScan s h (some g₀) es none =
      match Lib.row Revocation.triple ⟨g₀, h.capability, h.grantee⟩ es with
      | none => (false, none)
      | some r => if r.withdrawn then (false, some r.epoch) else (true, none) := by
  induction es with
  | nil => rfl
  | cons e es ih =>
    rw [List.map_cons, List.nodup_cons] at hn
    by_cases he : e.triple = ⟨g₀, h.capability, h.grantee⟩
    · have hrow : Lib.row Revocation.triple ⟨g₀, h.capability, h.grantee⟩ (e :: es) = some e := by
        simp [Lib.row, he]
      have hother : ∀ e' ∈ es, e'.triple ≠ ⟨g₀, h.capability, h.grantee⟩ := fun e' he' heq =>
        hn.1 (List.mem_map.2 ⟨e', he', heq.trans he.symm⟩)
      simp only [Revocation.triple, Triple.mk.injEq] at he
      have hyes : (counts s { h with floor := none } e && rootEntry s (some g₀) e) = true := by
        simp [counts, undone, entitled, rootEntry, rootMember, hr, ha, he, hg]
      rw [rootScan_cons, if_pos hyes, hrow, rootScan_other hr _ hother]
      rfl
    · have hrow : Lib.row Revocation.triple ⟨g₀, h.capability, h.grantee⟩ (e :: es) =
          Lib.row Revocation.triple ⟨g₀, h.capability, h.grantee⟩ es := by
        simp [Lib.row, he]
      rw [hrow, rootScan_cons, if_neg fun hyes => he (triple_of_rootEntry hr hyes)]
      exact ih hn.2

end OneRoot

/-- A live entry of an issuer for a pair, in an epoch past the one the first
grantor withdrew in, if it did. -/
def LivePast (s : RevocationStore) (g₀ issuer : Key) (capability : CapId) (grantee : Key) : Prop :=
  ∃ e, findEntry s ⟨issuer, capability, grantee⟩ = some e ∧ e.withdrawn = false ∧
    ∀ r, findEntry s ⟨g₀, capability, grantee⟩ = some r → r.withdrawn = true → r.epoch < e.epoch

/-- With no root withdrawal an entry is live past it exactly when it is live. -/
theorem livePast_iff_covers (hs : storeSound s = true) {g₀ issuer : Key} {capability : CapId}
    {grantee : Key}
    (hno : ∀ r, findEntry s ⟨g₀, capability, grantee⟩ = some r → r.withdrawn = false) :
    LivePast s g₀ issuer capability grantee ↔ covers s issuer capability grantee = true := by
  rw [covers_eq hs ⟨issuer, capability, grantee⟩, Option.any_eq_true]
  constructor
  · rintro ⟨e, he, hw, -⟩
    exact ⟨e, he, by simp [hw]⟩
  · rintro ⟨e, he, hw⟩
    refine ⟨e, he, by simpa using hw, fun r hr hrw => ?_⟩
    exact absurd (hno r hr) (by simp [hrw])

/-- The votes counted behind the first grantor's own entry. -/
theorem tally_live_pos (ha : s.hasAdmin = false) (hr : s.roots = none) (hany : h.anyIssuer = false)
    (h1 : OneEntryPerTriple s) :
    0 < tally s h (fun w _ => !w) ↔ ∃ g ∈ h.grantors, ∃ e,
      findEntry s ⟨g, h.capability, h.grantee⟩ = some e ∧ e.withdrawn = false ∧
        undone h.floor e.epoch = false := by
  rw [tally, List.countP_pos_iff]
  constructor
  · rintro ⟨e, he, hp⟩
    simp only [counts, entitled, rootMember, hr, ha, hany, Bool.and_eq_true, decide_eq_true_eq,
      Option.any_none, Bool.false_and, Bool.or_false, if_false, Bool.not_eq_true',
      Bool.false_eq_true] at hp
    obtain ⟨⟨⟨⟨hcap, hgr⟩, hun⟩, hiss⟩, hw⟩ := hp
    refine ⟨e.issuer, hiss, e, (Lib.row_eq_some_iff h1).2 ⟨he, ?_⟩, hw, hun⟩
    rw [Revocation.triple, hcap, hgr]
  · rintro ⟨g, hg, e, he, hw, hun⟩
    have ht := findEntry_triple he
    simp only [Revocation.triple, Triple.mk.injEq] at ht
    refine ⟨e, findEntry_mem he, ?_⟩
    simp [counts, entitled, rootMember, hr, ha, hany, ht, hun, hg, hw]

/-- The verdict at a quorum of one, by the first grantor's own entry and the
ancestors' votes past it. -/
theorem judgeHop_one (ha : s.hasAdmin = false) (hr : s.roots = none) (hany : h.anyIssuer = false)
    (h1 : OneEntryPerTriple s) {g₀ : Key} (hg₀ : g₀ ∈ h.grantors) :
    (judgeHop s h (some g₀) 1).revoked = true ↔
      (findEntry s ⟨g₀, h.capability, h.grantee⟩).any (fun e => !e.withdrawn) = true ∨
        ∃ g ∈ h.grantors, LivePast s g₀ g h.capability h.grantee := by
  have hvotes : ∀ floor, (judgeVotes s { h with floor := floor } 1).revoked = true ↔
      ∃ g ∈ h.grantors, ∃ e, findEntry s ⟨g, h.capability, h.grantee⟩ = some e ∧
        e.withdrawn = false ∧ undone floor e.epoch = false := fun floor => by
    rw [judgeVotes_one, decide_eq_true_eq]
    exact tally_live_pos ha hr hany h1
  unfold LivePast
  rw [judgeHop, rootPass_eq_scan (Or.inl rfl), rootScan_eq hr hany hg₀ h1, ← findEntry]
  cases findEntry s ⟨g₀, h.capability, h.grantee⟩ with
  | none => simpa [undone] using hvotes none
  | some r =>
    cases hw : r.withdrawn with
    | false => simp [hw, HopVerdict.revoked]
    | true => simpa [hw, undone] using hvotes (some r.epoch)

section Links

variable {links : List Link} {capability : CapId} {adminOk : ℕ → Bool} {i : ℕ}

theorem hopQuestion_grantee (hi : i < links.length) :
    (hopQuestion links capability adminOk i).grantee = links[i].grantee := by
  simp [hopQuestion, hi]

theorem firstGrantor_eq (hi : i < links.length) : firstGrantor links = some links[0].grantor := by
  simp [firstGrantor, List.head?_eq_getElem?, show 0 < links.length by omega]

/-- The ancestors of hop `i` are the grantors of the hops up to it. -/
theorem mem_hopQuestion_grantors (hi : i < links.length) {g : Key} :
    g ∈ (hopQuestion links capability adminOk i).grantors ↔
      ∃ j, ∃ _ : j ≤ i, links[j].grantor = g := by
  simp only [hopQuestion, List.mem_map, List.mem_take_iff_getElem]
  constructor
  · rintro ⟨l, ⟨j, hj, rfl⟩, rfl⟩
    exact ⟨j, by omega, rfl⟩
  · rintro ⟨j, hj, rfl⟩
    exact ⟨_, ⟨j, by omega, rfl⟩, rfl⟩

/-- A hop's mark is the verdict on it. -/
theorem coversLinks_eq (hs : storeSound s = true) (hlen : links.length ≤ chainMaxHops)
    (hi : i < links.length) :
    coversLinks s links capability i =
      (judgeHop s (hopQuestion links capability (standingAdmins s) i) (some links[0].grantor)
        (quorumOf s)).revoked := by
  rw [coversLinks, if_neg (by simp [hs]), if_neg (by omega), judgeLinks, firstGrantor_eq hi]
  simp [hi]

end Links

/-- **A quorum of one is the plain rule.**  A hop is revoked exactly when the
chain's first grantor holds a live entry for it, or some grantor up to it holds
one in an epoch past the first grantor's withdrawal; without such a withdrawal,
exactly when `fzn_revocation_covers` says so of one of these grantors. -/
theorem coversLinks_quorum_one (hs : storeSound s = true) (hq : s.quorum ≤ 1)
    (ha : s.hasAdmin = false) (hr : s.roots = none) (h1 : OneEntryPerTriple s) {links : List Link}
    (hlen : links.length ≤ chainMaxHops) (capability : CapId) {i : ℕ} (hi : i < links.length) :
    (coversLinks s links capability i = true ↔
      covers s links[0].grantor capability links[i].grantee = true ∨
        ∃ j, ∃ _ : j ≤ i, LivePast s links[0].grantor links[j].grantor capability links[i].grantee) ∧
    ((∀ r, findEntry s ⟨links[0].grantor, capability, links[i].grantee⟩ = some r →
        r.withdrawn = false) →
      (coversLinks s links capability i = true ↔
        ∃ j, ∃ _ : j ≤ i, covers s links[j].grantor capability links[i].grantee = true)) := by
  have hone : quorumOf s = 1 := by unfold quorumOf; split_ifs <;> omega
  have hg₀ : links[0].grantor ∈ (hopQuestion links capability (standingAdmins s) i).grantors :=
    (mem_hopQuestion_grantors hi).2 ⟨0, by omega, rfl⟩
  have hplain : coversLinks s links capability i = true ↔
      covers s links[0].grantor capability links[i].grantee = true ∨
        ∃ j, ∃ _ : j ≤ i,
          LivePast s links[0].grantor links[j].grantor capability links[i].grantee := by
    rw [coversLinks_eq hs hlen hi, hone, judgeHop_one ha hr rfl h1 hg₀, hopQuestion_grantee hi,
      covers_eq hs ⟨_, _, _⟩]
    refine or_congr_right ⟨?_, ?_⟩
    · rintro ⟨g, hg, hlive⟩
      obtain ⟨j, hj, rfl⟩ := (mem_hopQuestion_grantors hi).1 hg
      exact ⟨j, hj, hlive⟩
    · rintro ⟨j, hj, hlive⟩
      exact ⟨_, (mem_hopQuestion_grantors hi).2 ⟨j, hj, rfl⟩, hlive⟩
  refine ⟨hplain, fun hno => hplain.trans ?_⟩
  simp only [livePast_iff_covers hs hno]
  exact ⟨fun h => h.elim (fun h => ⟨0, by omega, h⟩) id, Or.inr⟩

/-- The root `1` withdrew its entry for `(7, 3)` in epoch 3, and its grantee `2`
revoked the pair again in epoch 4. -/
def revotedStore : RevocationStore :=
  { emptyStore 2 with entries :=
      [{ capability := ⟨7⟩, grantee := 3, issuer := 1, id := 10, withdrawn := true, epoch := 3,
         held := 11, cut := 0 },
       { capability := ⟨7⟩, grantee := 3, issuer := 2, id := 12, withdrawn := false, epoch := 4,
         held := 12, cut := 0 }] }

/-- The hypotheses are satisfiable: past the root's undo the ancestor's vote
revokes the second hop. -/
theorem coversLinks_revotedStore : coversLinks revotedStore [⟨1, 2⟩, ⟨2, 3⟩] ⟨7⟩ 1 = true := by
  refine (coversLinks_quorum_one rfl (by decide) rfl rfl (by decide) (by decide) ⟨7⟩
    (by decide)).1.2 (Or.inr ⟨1, le_rfl, _, rfl, rfl, fun r hr _ => ?_⟩)
  obtain rfl := Option.some.inj hr
  decide

end Chain
end Fuzznet
