/-
# The root set is a function of the records held

The rule of `chain/root_log.h`, stated on sets: with the removals `R` fixed, the members
are the least set of keys that holds the genesis root and the subject of every add whose
act counts (`Member`), and the removals recomputed are those whose remover is a member.
Nothing in it mentions an order.

The flags of a reading mark the records of such sets (`Marks`), pass by pass and round
by round: `marks_growMembers` for the passes over the adds, `marks_nextRemovals` for the
removals, `settleRounds_agree` for the rounds of two sets that hold the same records.
A reading that settles has removals that are their own recomputation, which is the rule
(`rootRule_of_settles`).
-/

import Fuzznet.Chain.RootLog
import Mathlib.Data.List.Perm.Basic
import Mathlib.Order.Bounds.Defs
import Mathlib.Data.Set.Basic

namespace Fuzznet
namespace Chain

open Wire

/-! ## The rule -/

section Rule

variable (genesis : Key) (records : List RootChange) (acts : Option ActLogOps)
  (R : Set RootChange)

/-- The act stands under the cut of every removal of its root that counts. -/
def CutsAllow (root : Key) (act : RecId) : Prop :=
  ∀ c ∈ records, c.isAdd = false → c ∈ R → c.subject = root →
    standsUnder acts root c.cut act = true

/-- The members, with the removals `R` fixed. -/
inductive Member : Key → Prop
  | genesis : Member genesis
  | add {c : RootChange} (hc : c ∈ records) (hadd : c.isAdd = true) (hadder : Member c.signer)
      (hcuts : CutsAllow records acts R c.signer c.id) : Member c.subject

/-- The adds that count. -/
def CountingAdds : Set RootChange :=
  {c | c.isAdd = true ∧ Member genesis records acts R c.signer ∧
    CutsAllow records acts R c.signer c.id}

/-- The removals whose remover is a member. -/
def CountingRemovals : Set RootChange :=
  {c | c.isAdd = false ∧ Member genesis records acts R c.signer}

end Rule

variable {genesis : Key} {records : List RootChange} {acts : Option ActLogOps}
  {R S : Set RootChange} {set set' : RootSet}

section

variable {records' : List RootChange} (h : ∀ c, c ∈ records ↔ c ∈ records')
include h

/-- The rule asks which records are held, not in what order. -/
theorem cutsAllow_congr (root : Key) (act : RecId) :
    CutsAllow records acts R root act ↔ CutsAllow records' acts R root act :=
  ⟨fun hc c hm => hc c ((h c).2 hm), fun hc c hm => hc c ((h c).1 hm)⟩

theorem member_congr (key : Key) :
    Member genesis records acts R key ↔ Member genesis records' acts R key := by
  constructor
  · intro hk
    induction hk with
    | genesis => exact .genesis
    | add hc hadd _ hcuts ih => exact .add ((h _).1 hc) hadd ih ((cutsAllow_congr h _ _).1 hcuts)
  · intro hk
    induction hk with
    | genesis => exact .genesis
    | add hc hadd _ hcuts ih => exact .add ((h _).2 hc) hadd ih ((cutsAllow_congr h _ _).2 hcuts)

theorem countingRemovals_congr :
    CountingRemovals genesis records acts R = CountingRemovals genesis records' acts R := by
  ext c
  unfold CountingRemovals
  rw [Set.mem_ofPred_eq, Set.mem_ofPred_eq, member_congr h]

end

/-! ## Flags that mark a set of records -/

/-- The flag of a record says whether it is in `P`. -/
def Marks (records : List RootChange) (f : ℕ → Bool) (P : Set RootChange) : Prop :=
  ∀ i c, records[i]? = some c → (f i = true ↔ c ∈ P)

theorem marks_empty (records : List RootChange) : Marks records (fun _ => false) ∅ := by
  intro i c _
  simp

/-- Every set of records is marked by some flags. -/
theorem exists_marks (records : List RootChange) (P : Set RootChange) :
    ∃ f, Marks records f P := by
  classical
  refine ⟨fun i => decide (∃ c, records[i]? = some c ∧ c ∈ P), fun i c hc => ?_⟩
  rw [decide_eq_true_eq, hc]
  exact ⟨fun ⟨_, hb, hmem⟩ => Option.some.inj hb ▸ hmem, fun hmem => ⟨c, rfl, hmem⟩⟩

theorem Marks.union {f g : ℕ → Bool} (hf : Marks records f R) (hg : Marks records g S) :
    Marks records (fun i => f i || g i) (R ∪ S) := by
  intro i c hc
  rw [Bool.or_eq_true, hf i c hc, hg i c hc, Set.mem_union]

/-- A question asked of the flagged records is one asked of the set they mark. -/
theorem Marks.any_iff {f : ℕ → Bool} (hf : Marks records f R) (q : RootChange → Bool) :
    (records.zipIdx.any fun p => q p.1 && f p.2) = true ↔ ∃ c ∈ records, q c = true ∧ c ∈ R := by
  rw [List.any_eq_true]
  constructor
  · rintro ⟨⟨c, i⟩, hmem, hq⟩
    have hi := List.mem_zipIdx_iff_getElem?.1 hmem
    rw [Bool.and_eq_true] at hq
    exact ⟨c, List.mem_of_getElem? hi, hq.1, (hf i c hi).1 hq.2⟩
  · rintro ⟨c, hc, hq, hR⟩
    obtain ⟨i, hi⟩ := List.mem_iff_getElem?.1 hc
    refine ⟨(c, i), List.mem_zipIdx_iff_getElem?.2 hi, ?_⟩
    rw [Bool.and_eq_true]
    exact ⟨hq, (hf i c hi).2 hR⟩

theorem memberIn_iff {f : ℕ → Bool} (hf : Marks set.changes f R) (key : Key) :
    memberIn set f key = true ↔
      set.genesis = key ∨ ∃ c ∈ set.changes, c.isAdd = true ∧ c ∈ R ∧ c.subject = key := by
  have hany := hf.any_iff fun c => c.isAdd && decide (c.subject = key)
  unfold memberIn
  rw [Bool.or_eq_true, decide_eq_true_eq]
  simp only [Bool.and_right_comm] at hany ⊢
  rw [hany]
  simp only [Bool.and_eq_true, decide_eq_true_eq]
  exact ⟨fun h => h.imp_right fun ⟨c, hc, ⟨ha, hs⟩, hR⟩ => ⟨c, hc, ha, hR, hs⟩,
    fun h => h.imp_right fun ⟨c, hc, ha, hR, hs⟩ => ⟨c, hc, ⟨ha, hs⟩, hR⟩⟩

theorem removedIn_iff {f : ℕ → Bool} (hf : Marks set.changes f R) (key : Key) :
    removedIn set f key = true ↔
      ∃ c ∈ set.changes, c.isAdd = false ∧ c ∈ R ∧ c.subject = key := by
  have hany := hf.any_iff fun c => !c.isAdd && decide (c.subject = key)
  unfold removedIn
  simp only [Bool.and_right_comm] at hany ⊢
  rw [hany]
  simp only [Bool.and_eq_true, decide_eq_true_eq, Bool.not_eq_true']
  exact ⟨fun ⟨c, hc, ⟨ha, hs⟩, hR⟩ => ⟨c, hc, ha, hR, hs⟩,
    fun ⟨c, hc, ha, hR, hs⟩ => ⟨c, hc, ⟨ha, hs⟩, hR⟩⟩

theorem countsIn_iff {st : RootView} (hrem : Marks set.changes st.remOk R) (root : Key)
    (act : RecId) : countsIn set acts st root act = true ↔
      memberIn set st.addOk root = true ∧ CutsAllow set.changes acts R root act := by
  unfold countsIn CutsAllow
  rw [Bool.and_eq_true, List.all_eq_true]
  refine and_congr_right fun _ => ⟨fun h c hc hadd hR hs => ?_, fun h p hp => ?_⟩
  · obtain ⟨i, hi⟩ := List.mem_iff_getElem?.1 hc
    have hp := h (c, i) (List.mem_zipIdx_iff_getElem?.2 hi)
    simpa [hadd, (hrem i c hi).2 hR, hs] using hp
  · obtain ⟨c, i⟩ := p
    have hi := List.mem_zipIdx_iff_getElem?.1 hp
    by_cases hadd : c.isAdd = true
    · simp [hadd]
    by_cases hr : st.remOk i = true
    · by_cases hs : c.subject = root
      · have := h c (List.mem_of_getElem? hi) (by simpa using hadd) ((hrem i c hi).1 hr) hs
        simp [this]
      · simp [hs]
    · simp [hr]

/-! ## The passes and the rounds -/

/-- An add raised by the passes stays passed when more stand. -/
theorem monoTest_addTest (remOk : ℕ → Bool) : Lib.MonoTest (addTest set acts remOk) := by
  intro f g hle i hi
  unfold addTest at hi ⊢
  cases hc : set.changes[i]? with
  | none => simp [hc] at hi
  | some c =>
    rw [hc, Option.any_some, Bool.and_eq_true] at hi
    rw [Option.any_some, Bool.and_eq_true]
    refine ⟨hi.1, ?_⟩
    have hcounts := hi.2
    unfold countsIn at hcounts ⊢
    rw [Bool.and_eq_true] at hcounts ⊢
    refine ⟨?_, hcounts.2⟩
    have hm := hcounts.1
    unfold memberIn at hm ⊢
    rw [Bool.or_eq_true, List.any_eq_true] at hm ⊢
    refine hm.imp_right fun ⟨p, hp, hq⟩ => ⟨p, hp, ?_⟩
    simp only [Bool.and_eq_true] at hq ⊢
    exact ⟨⟨hq.1.1, hle _ hq.1.2⟩, hq.2⟩

variable {remOk : ℕ → Bool} {c : RootChange}

/-- The test of an add on flags that mark `P`. -/
theorem addTest_iff {remOk addOk : ℕ → Bool} (hrem : Marks set.changes remOk R) {i : ℕ}
    (hc : set.changes[i]? = some c) :
    addTest set acts remOk addOk i = true ↔ c.isAdd = true ∧
      memberIn set addOk c.signer = true ∧ CutsAllow set.changes acts R c.signer c.id := by
  unfold addTest
  rw [hc, Option.any_some, Bool.and_eq_true, countsIn_iff hrem]

/-- What the passes raise counts, since the adds that count are closed under the test. -/
theorem mem_countingAdds_of_growMembers (hrem : Marks set.changes remOk R) {i : ℕ}
    (hc : set.changes[i]? = some c) (hi : growMembers set acts remOk i = true) :
    c ∈ CountingAdds set.genesis set.changes acts R := by
  obtain ⟨d, hd⟩ := exists_marks set.changes (CountingAdds set.genesis set.changes acts R)
  refine (hd i c hc).1 (Lib.rounds_least (d := d) (monoTest_addTest remOk)
    (fun j hj htest => ?_) _ _ (fun _ h => absurd h (by simp)) i hi)
  obtain ⟨a, ha⟩ : ∃ a, set.changes[j]? = some a :=
    ⟨_, List.getElem?_eq_getElem (List.mem_range.1 hj)⟩
  obtain ⟨hadd, hm, hcuts⟩ := (addTest_iff hrem ha).1 htest
  refine (hd j a ha).2 ⟨hadd, ?_, hcuts⟩
  rcases (memberIn_iff hd _).1 hm with hg | ⟨b, hb, hbadd, hbmem, hbs⟩
  · exact hg ▸ .genesis
  · exact hbs ▸ .add hb hbadd hbmem.2.1 hbmem.2.2

/-- An add that counts under the flags the passes end with is raised. -/
theorem growMembers_of_test (hrem : Marks set.changes remOk R) {i : ℕ}
    (hc : set.changes[i]? = some c) (hadd : c.isAdd = true)
    (hm : memberIn set (growMembers set acts remOk) c.signer = true)
    (hcuts : CutsAllow set.changes acts R c.signer c.id) : growMembers set acts remOk i = true := by
  have hi : i < set.changes.length := (List.getElem?_eq_some_iff.1 hc).1
  refine Lib.rounds_closed ?_ i (List.mem_range.2 hi) ((addTest_iff hrem hc).2 ⟨hadd, hm, hcuts⟩)
  have hdown : Lib.down (List.range set.changes.length) (fun _ => false) ≤
      (List.range set.changes.length).length := List.countP_le_length
  rw [List.length_range] at hdown
  omega

theorem memberIn_growMembers_of_member (hrem : Marks set.changes remOk R) {key : Key}
    (hk : Member set.genesis set.changes acts R key) :
    memberIn set (growMembers set acts remOk) key = true := by
  induction hk with
  | genesis => simp [memberIn]
  | @add c hc hadd _ hcuts ih =>
    obtain ⟨i, hi⟩ := List.mem_iff_getElem?.1 hc
    have hraised := growMembers_of_test hrem hi hadd ih hcuts
    unfold memberIn
    rw [Bool.or_eq_true, List.any_eq_true]
    refine Or.inr ⟨(c, i), List.mem_zipIdx_iff_getElem?.2 hi, ?_⟩
    simp [hadd, hraised]

/-- **The passes mark the adds that count.** -/
theorem marks_growMembers (hrem : Marks set.changes remOk R) :
    Marks set.changes (growMembers set acts remOk)
      (CountingAdds set.genesis set.changes acts R) := by
  intro i c hc
  refine ⟨mem_countingAdds_of_growMembers hrem hc, fun ⟨hadd, hm, hcuts⟩ => ?_⟩
  exact growMembers_of_test hrem hc hadd (memberIn_growMembers_of_member hrem hm) hcuts

/-- **The members behind the passes are the members of the rule.** -/
theorem memberIn_growMembers (hrem : Marks set.changes remOk R) (key : Key) :
    memberIn set (growMembers set acts remOk) key = true ↔
      Member set.genesis set.changes acts R key := by
  refine ⟨fun h => ?_, memberIn_growMembers_of_member hrem⟩
  rcases (memberIn_iff (marks_growMembers hrem) key).1 h with hg | ⟨c, hc, hadd, hmem, hs⟩
  · exact hg ▸ .genesis
  · exact hs ▸ .add hc hadd hmem.2.1 hmem.2.2

/-- **The removals recomputed mark those whose remover is a member.** -/
theorem marks_nextRemovals (acts : Option ActLogOps) (hrem : Marks set.changes remOk R) :
    Marks set.changes (nextRemovals set (growMembers set acts remOk))
      (CountingRemovals set.genesis set.changes acts R) := by
  intro i c hc
  unfold nextRemovals CountingRemovals
  rw [hc, Option.any_some, Bool.and_eq_true, Bool.not_eq_true', memberIn_growMembers hrem,
    Set.mem_ofPred_eq]

/-- Two arrays of flags are the same bytes when they mark the same records. -/
theorem sameFlags_iff {f g : ℕ → Bool} (hf : Marks set.changes f R) (hg : Marks set.changes g S) :
    sameFlags set.changes.length f g = true ↔ ∀ c ∈ set.changes, c ∈ R ↔ c ∈ S := by
  unfold sameFlags
  rw [List.all_eq_true]
  constructor
  · intro h c hc
    obtain ⟨i, hi⟩ := List.mem_iff_getElem?.1 hc
    have heq := eq_of_beq (h i (List.mem_range.2 (List.getElem?_eq_some_iff.1 hi).1))
    rw [← hf i c hi, ← hg i c hi, heq]
  · intro h i hi
    have hc := List.getElem?_eq_getElem (List.mem_range.1 hi)
    rw [beq_iff_eq, Bool.eq_iff_iff, hf i _ hc, hg i _ hc]
    exact h _ (List.mem_of_getElem? hc)

/-- What a reading ends with: the removals it keeps and the adds that count under
them; and if it settled, the removals are those whose remover is a member. -/
theorem settleRounds_marks (set : RootSet) (acts : Option ActLogOps) (left : ℕ)
    {remOk seen : ℕ → Bool} (hrem : Marks set.changes remOk R)
    (hseen : Marks set.changes seen S) :
    ∃ P, Marks set.changes (settleRounds set acts left remOk seen).1.remOk P ∧
      (settleRounds set acts left remOk seen).1.addOk =
        growMembers set acts (settleRounds set acts left remOk seen).1.remOk ∧
      ((settleRounds set acts left remOk seen).2 = true →
        ∀ c ∈ set.changes, c ∈ P ↔ c ∈ CountingRemovals set.genesis set.changes acts P) := by
  induction left generalizing remOk seen R S with
  | zero => exact ⟨S, hseen, rfl, fun h => absurd h (by simp [settleRounds])⟩
  | succ left ih =>
    have hnext := marks_nextRemovals acts hrem
    rw [settleRounds]
    by_cases hsame : sameFlags set.changes.length
        (nextRemovals set (growMembers set acts remOk)) remOk = true
    · rw [if_pos hsame]
      exact ⟨R, hrem, rfl, fun _ c hc => ((sameFlags_iff hnext hrem).1 hsame c hc).symm⟩
    · rw [if_neg hsame]
      exact ih hnext (hseen.union hnext)

/-- **Two sets that hold the same records settle alike**, round by round. -/
theorem settleRounds_agree (acts : Option ActLogOps) (hgen : set.genesis = set'.genesis)
    (hsame : ∀ c, c ∈ set.changes ↔ c ∈ set'.changes) (left : ℕ)
    {remOk remOk' seen seen' : ℕ → Bool}
    (hrem : Marks set.changes remOk R) (hrem' : Marks set'.changes remOk' R)
    (hseen : Marks set.changes seen S) (hseen' : Marks set'.changes seen' S) :
    ∃ P, Marks set.changes (settleRounds set acts left remOk seen).1.remOk P ∧
      Marks set'.changes (settleRounds set' acts left remOk' seen').1.remOk P := by
  induction left generalizing remOk remOk' seen seen' R S with
  | zero => exact ⟨S, hseen, hseen'⟩
  | succ left ih =>
    have hnext := marks_nextRemovals acts hrem
    have hnext' := marks_nextRemovals acts hrem'
    rw [← hgen, ← countingRemovals_congr hsame] at hnext'
    have hiff : sameFlags set.changes.length
          (nextRemovals set (growMembers set acts remOk)) remOk = true ↔
        sameFlags set'.changes.length
          (nextRemovals set' (growMembers set' acts remOk')) remOk' = true := by
      rw [sameFlags_iff hnext hrem, sameFlags_iff hnext' hrem']
      exact ⟨fun h c hc => h c ((hsame c).2 hc), fun h c hc => h c ((hsame c).1 hc)⟩
    rw [settleRounds, settleRounds]
    by_cases hstop : sameFlags set.changes.length
        (nextRemovals set (growMembers set acts remOk)) remOk = true
    · rw [if_pos hstop, if_pos (hiff.1 hstop)]
      exact ⟨R, hrem, hrem'⟩
    · rw [if_neg hstop, if_neg fun h => hstop (hiff.2 h)]
      exact ih hnext hnext' (hseen.union hnext) (hseen'.union hnext')

/-! ## The records a set holds -/

section Admission

variable {sign : SignOps} {hash : HashOps}

/-- What a record's bytes are kept as: nothing for bytes of another shape. -/
def recordChange (hash : HashOps) (bs : Bytes) : Option RootChange :=
  match rootRecordShape bs, hash.hash bs with
  | some object, some id => some (rootChangeOf object bs id)
  | _, _ => none

theorem recordChange_hash {bs : Bytes} (h : recordChange hash bs = some c) :
    hash.hash bs = some c.id := by
  unfold recordChange at h
  cases hs : rootRecordShape bs with
  | none => simp [hs] at h
  | some object =>
    cases hh : hash.hash bs with
    | none => simp [hs, hh] at h
    | some id =>
      rw [hs, hh] at h
      rw [← Option.some.inj h]
      rfl

/-- **What an admission that answers OK does:** the record's id was held, and nothing
moves; or it was not, there was room, and the change is kept at the end. -/
theorem rootSetAdmit_ok {bs : Bytes} (h : (rootSetAdmit set bs sign hash).1 = .ok) :
    ∃ c, recordChange hash bs = some c ∧
      (((∃ held ∈ set.changes, held.id = c.id) ∧ (rootSetAdmit set bs sign hash).2 = set) ∨
        ((∀ held ∈ set.changes, held.id ≠ c.id) ∧ set.changes.length < set.capacity ∧
          (rootSetAdmit set bs sign hash).2 = { set with changes := set.changes ++ [c] })) := by
  unfold rootSetAdmit recordChange at *
  by_cases hsound : rootSetSound set = false
  · simp [hsound] at h
  rw [if_neg hsound] at h ⊢
  cases hs : rootRecordShape bs with
  | none => simp [hs] at h
  | some object =>
    rw [hs] at h
    dsimp only at h ⊢
    by_cases hsig : sign.verify (rootRecordSigner bs) (bs.take object.bodyLen)
        (BitVec.ofNat 512 (getBe bs object.bodyLen 64)) = false
    · simp [hsig] at h
    rw [if_neg hsig] at h ⊢
    cases hh : hash.hash bs with
    | none => simp [hh] at h
    | some id =>
      rw [hh] at h
      dsimp only at h ⊢
      refine ⟨_, rfl, ?_⟩
      unfold keepChange at h ⊢
      by_cases hheld : (set.changes.any fun held =>
          held.id = (rootChangeOf object bs id).id) = true
      · rw [if_pos hheld]
        exact Or.inl ⟨by simpa using hheld, rfl⟩
      rw [if_neg hheld] at h ⊢
      by_cases hfull : set.changes.length ≥ set.capacity
      · simp [hfull] at h
      rw [if_neg hfull]
      exact Or.inr ⟨by simpa using hheld, by omega, rfl⟩

/-- The set holds just the records admitted, each once, and has room for them. -/
structure Holds (hash : HashOps) (genesis : Key) (set : RootSet) (admitted : List Bytes) :
    Prop where
  mem : ∀ c, c ∈ set.changes ↔ ∃ bs ∈ admitted, recordChange hash bs = some c
  distinct : (set.changes.map RootChange.id).Nodup
  room : set.changes.length ≤ set.capacity
  genesis : set.genesis = genesis

/-- **An admission that answers OK adds its record**, where no two records share a
hash. -/
theorem Holds.step {admitted : List Bytes} (h : Holds hash genesis set admitted) {bs : Bytes}
    (hok : (rootSetAdmit set bs sign hash).1 = .ok)
    (hinj : ∀ a ∈ admitted, ∀ id, hash.hash a = some id → hash.hash bs = some id → a = bs) :
    Holds hash genesis (rootSetAdmit set bs sign hash).2 (admitted ++ [bs]) := by
  obtain ⟨c, hc, ⟨⟨held, hmem, hid⟩, heq⟩ | ⟨hnew, hroom, heq⟩⟩ := rootSetAdmit_ok hok
  · -- The id held is that of the same bytes, so the change is held already.
    obtain ⟨a, ha, hac⟩ := (h.mem held).1 hmem
    obtain rfl : a = bs :=
      hinj a ha c.id (hid ▸ recordChange_hash hac) (recordChange_hash hc)
    rw [heq]
    refine ⟨fun d => ?_, h.distinct, h.room, h.genesis⟩
    rw [h.mem d]
    refine ⟨fun ⟨b, hb, hbd⟩ => ⟨b, List.mem_append_left _ hb, hbd⟩, fun ⟨b, hb, hbd⟩ => ?_⟩
    rcases List.mem_append.1 hb with hb | hb
    · exact ⟨b, hb, hbd⟩
    · exact ⟨a, ha, List.mem_singleton.1 hb ▸ hbd⟩
  · rw [heq]
    refine ⟨fun d => ?_, ?_, ?_, h.genesis⟩
    · show d ∈ set.changes ++ [c] ↔ _
      rw [List.mem_append, h.mem d, List.mem_singleton]
      constructor
      · rintro (⟨b, hb, hbd⟩ | rfl)
        · exact ⟨b, List.mem_append_left _ hb, hbd⟩
        · exact ⟨bs, by simp, hc⟩
      · rintro ⟨b, hb, hbd⟩
        rcases List.mem_append.1 hb with hb | hb
        · exact Or.inl ⟨b, hb, hbd⟩
        · rw [List.mem_singleton.1 hb, hc] at hbd
          exact Or.inr (Option.some.inj hbd).symm
    · show ((set.changes ++ [c]).map RootChange.id).Nodup
      rw [List.map_append]
      refine h.distinct.append (List.nodup_singleton _) (List.disjoint_singleton.2 fun hmem => ?_)
      obtain ⟨held, hheld, heq⟩ := List.mem_map.1 hmem
      exact hnew held hheld heq
    · show (set.changes ++ [c]).length ≤ set.capacity
      rw [List.length_append, List.length_singleton]
      omega

theorem rootSetInit_ok {capacity : ℕ} {set : RootSet}
    (h : rootSetInit genesis capacity = .ok set) : set = ⟨genesis, [], capacity⟩ := by
  unfold rootSetInit at h
  split at h
  · cases h
  · exact (Except.ok.inj h).symm

/-- **A run of admissions that all answer OK leaves the records offered.** -/
theorem holds_rootSetRun {capacity : ℕ} {set : RootSet} {records : List Bytes}
    (hinit : rootSetInit genesis capacity = .ok set) (hok : AllAdmitted sign hash set records)
    (hinj : ∀ a ∈ records, ∀ b ∈ records, ∀ id, hash.hash a = some id → hash.hash b = some id →
      a = b) :
    Holds hash genesis (rootSetRun sign hash set records) records := by
  refine Lib.prefix_induction
    (P := fun pre => Holds hash genesis (rootSetRun sign hash set pre) pre)
    ?_ fun pre bs hle ih => ?_
  · rw [rootSetInit_ok hinit]
    exact ⟨fun c => by simp [rootSetRun], by simp [rootSetRun], by simp [rootSetRun], rfl⟩
  · have hrun : rootSetRun sign hash set (pre ++ [bs]) =
        (rootSetAdmit (rootSetRun sign hash set pre) bs sign hash).2 := by
      unfold rootSetRun
      rw [List.foldl_append]
      rfl
    rw [hrun]
    exact ih.step (hok pre bs hle) fun a ha =>
      hinj a (hle.subset (List.mem_append_left _ ha)) bs (hle.subset (by simp))

/-- Two sets that hold the same records hold as many. -/
theorem Holds.length_eq {admitted admitted' : List Bytes} (h : Holds hash genesis set admitted)
    (h' : Holds hash genesis set' admitted') (hsame : ∀ bs, bs ∈ admitted ↔ bs ∈ admitted') :
    (∀ c, c ∈ set.changes ↔ c ∈ set'.changes) ∧ set.changes.length = set'.changes.length := by
  have hmem : ∀ c, c ∈ set.changes ↔ c ∈ set'.changes := by
    intro c
    rw [h.mem c, h'.mem c]
    exact ⟨fun ⟨b, hb, hbc⟩ => ⟨b, (hsame b).1 hb, hbc⟩,
      fun ⟨b, hb, hbc⟩ => ⟨b, (hsame b).2 hb, hbc⟩⟩
  have hperm : set.changes.Perm set'.changes :=
    (List.perm_ext_iff_of_nodup h.distinct.of_map h'.distinct.of_map).2 hmem
  exact ⟨hmem, hperm.length_eq⟩

end Admission

/-! ## The answers -/

/-- The rule of `root_log.h` for the answers a set gives.  A removal counts when its
remover is a member, so which do is read off the members. -/
structure RootRule (set : RootSet) (acts : Option ActLogOps) : Prop where
  /-- Membership is the least set with the genesis root that is closed under the adds
  whose act counts. -/
  members : IsLeast
    {M : Set Key | set.genesis ∈ M ∧ ∀ c ∈ set.changes, c.isAdd = true → c.signer ∈ M →
      CutsAllow set.changes acts {r | rootSetMember set acts r.signer = true} c.signer c.id →
        c.subject ∈ M}
    {key | rootSetMember set acts key = true}
  counts : ∀ root act, rootSetCounts set acts root act = true ↔
    rootSetMember set acts root = true ∧
      CutsAllow set.changes acts {r | rootSetMember set acts r.signer = true} root act
  stands : ∀ key, rootSetStands set acts key = true ↔
    rootSetMember set acts key = true ∧ ¬∃ c ∈ set.changes, c.isAdd = false ∧
      rootSetMember set acts c.signer = true ∧ c.subject = key

/-- A set that can be read and whose flags fit is read as it settles. -/
theorem rootReading_eq (set : RootSet) (acts : Option ActLogOps) : rootReading set acts =
    if set.changes.length ≤ set.capacity ∧ set.changes.length ≤ rootSetMax then
      some (settle set acts).1
    else none := by
  unfold rootReading rootViewInit
  by_cases hs : set.changes.length ≤ set.capacity
  · by_cases hm : set.changes.length ≤ rootSetMax
    · rw [if_neg (by simp [rootSetSound, hs]), if_neg (by simpa using hm), if_pos ⟨hs, hm⟩]
      rfl
    · rw [if_neg (by simp [rootSetSound, hs]), if_pos (by simpa using hm), if_neg fun h => hm h.2]
      rfl
  · rw [if_pos (by simp [rootSetSound, hs]), if_neg fun h => hs h.1]
    rfl

theorem rootSetSettles_iff : rootSetSettles set acts = true ↔
    (set.changes.length ≤ set.capacity ∧ set.changes.length ≤ rootSetMax) ∧
      (settle set acts).2 = true := by
  unfold rootSetSettles
  rw [Bool.and_eq_true, rootReading_eq]
  refine and_congr_left fun _ => ?_
  split_ifs with hfits <;> simp [hfits]

/-- **A reading that settles answers by the rule.** -/
theorem rootRule_of_settles (h : rootSetSettles set acts = true) : RootRule set acts := by
  obtain ⟨hfits, hsettled⟩ := rootSetSettles_iff.1 h
  obtain ⟨P, hP, hadd, hrule⟩ := settleRounds_marks set acts
    (set.changes.length + 1) (marks_empty set.changes) (marks_empty _)
  have hfix := hrule hsettled
  change Marks set.changes (settle set acts).1.remOk P at hP
  change (settle set acts).1.addOk = growMembers set acts (settle set acts).1.remOk at hadd
  have hread := (rootReading_eq set acts).trans (if_pos hfits)
  have hmember : ∀ key, rootSetMember set acts key = true ↔
      Member set.genesis set.changes acts P key := by
    intro key
    unfold rootSetMember
    rw [hread, Option.any_some, hadd, memberIn_growMembers hP]
  -- The removals kept are those whose remover is a member.
  have hremoval : ∀ c ∈ set.changes, c.isAdd = false →
      (c ∈ P ↔ rootSetMember set acts c.signer = true) := by
    intro c hc hrem
    rw [hfix c hc, hmember]
    exact ⟨fun hm => hm.2, fun hm => ⟨hrem, hm⟩⟩
  have hcuts : ∀ root act, CutsAllow set.changes acts P root act ↔
      CutsAllow set.changes acts {r | rootSetMember set acts r.signer = true} root act :=
    fun root act => ⟨fun hc c hm hrem hr => hc c hm hrem ((hremoval c hm hrem).2 hr),
      fun hc c hm hrem hr => hc c hm hrem ((hremoval c hm hrem).1 hr)⟩
  refine ⟨⟨⟨?_, ?_⟩, ?_⟩, fun root act => ?_, fun key => ?_⟩
  · exact (hmember _).2 .genesis
  · intro c hc hcadd hsigner hallow
    exact (hmember _).2 (.add hc hcadd ((hmember _).1 hsigner) ((hcuts _ _).2 hallow))
  · rintro M ⟨hgen, hclosed⟩ key hkey
    have hk := (hmember key).1 hkey
    induction hk with
    | genesis => exact hgen
    | add hc hcadd hm hallow ih =>
      exact hclosed _ hc hcadd (ih ((hmember _).2 hm)) ((hcuts _ _).1 hallow)
  · unfold rootSetCounts
    rw [hread, Option.any_some, countsIn_iff hP, hadd, memberIn_growMembers hP, hmember, hcuts]
  · unfold rootSetStands
    rw [hread, Option.any_some, Bool.and_eq_true, hadd, memberIn_growMembers hP, ← hmember,
      Bool.not_eq_true', ← Bool.not_eq_true, removedIn_iff hP]
    refine and_congr_right fun _ => not_congr ⟨?_, ?_⟩
    · rintro ⟨c, hc, hrem, hcP, hsub⟩
      exact ⟨c, hc, hrem, (hremoval c hc hrem).1 hcP, hsub⟩
    · rintro ⟨c, hc, hrem, hm, hsub⟩
      exact ⟨c, hc, hrem, (hremoval c hc hrem).2 hm, hsub⟩

/-- **Two sets that hold the same records give the same answers.** -/
theorem rootAnswers_agree (hgen : set.genesis = set'.genesis)
    (hsame : ∀ c, c ∈ set.changes ↔ c ∈ set'.changes)
    (hlen : set.changes.length = set'.changes.length)
    (hs : set.changes.length ≤ set.capacity) (hs' : set'.changes.length ≤ set'.capacity)
    (acts : Option ActLogOps) :
    (∀ key, rootSetMember set acts key = rootSetMember set' acts key) ∧
      (∀ key, rootSetStands set acts key = rootSetStands set' acts key) ∧
      ∀ root act, rootSetCounts set acts root act = rootSetCounts set' acts root act := by
  unfold rootSetMember rootSetStands rootSetCounts
  rw [rootReading_eq, rootReading_eq]
  by_cases hmax : set.changes.length ≤ rootSetMax
  swap
  · rw [if_neg fun h => hmax h.2, if_neg fun h => hmax (hlen ▸ h.2)]
    exact ⟨fun _ => rfl, fun _ => rfl, fun _ _ => rfl⟩
  rw [if_pos ⟨hs, hmax⟩, if_pos ⟨hs', hlen ▸ hmax⟩]
  simp only [Option.any_some]
  obtain ⟨P, hP, hP'⟩ := settleRounds_agree acts hgen hsame (set.changes.length + 1)
    (marks_empty set.changes) (marks_empty set'.changes) (marks_empty _) (marks_empty _)
  obtain ⟨-, -, hadd, -⟩ := settleRounds_marks set acts
    (set.changes.length + 1) (marks_empty set.changes) (marks_empty _)
  obtain ⟨-, -, hadd', -⟩ := settleRounds_marks set' acts
    (set'.changes.length + 1) (marks_empty set'.changes) (marks_empty _)
  rw [hlen] at hP'
  change Marks set.changes (settle set acts).1.remOk P at hP
  change Marks set'.changes (settle set' acts).1.remOk P at hP'
  change (settle set acts).1.addOk = growMembers set acts (settle set acts).1.remOk at hadd
  change (settle set' acts).1.addOk = growMembers set' acts (settle set' acts).1.remOk at hadd'
  have hmember : ∀ key, memberIn set (settle set acts).1.addOk key =
      memberIn set' (settle set' acts).1.addOk key := by
    intro key
    rw [Bool.eq_iff_iff, hadd, hadd', memberIn_growMembers hP, memberIn_growMembers hP', ← hgen]
    exact member_congr hsame key
  have hremoved : ∀ key, removedIn set (settle set acts).1.remOk key =
      removedIn set' (settle set' acts).1.remOk key := by
    intro key
    rw [Bool.eq_iff_iff, removedIn_iff hP, removedIn_iff hP']
    exact ⟨fun ⟨c, hc, hrest⟩ => ⟨c, (hsame c).1 hc, hrest⟩,
      fun ⟨c, hc, hrest⟩ => ⟨c, (hsame c).2 hc, hrest⟩⟩
  refine ⟨hmember, fun key => by rw [hmember, hremoved], fun root act => ?_⟩
  rw [Bool.eq_iff_iff, countsIn_iff hP, countsIn_iff hP', hmember, cutsAllow_congr hsame]

/-- **The root set is a function of the records held.**  Take two runs of
`fzn_root_set_admit` from a set of one genesis root, over the same records in any order
and any number of times, where every call answers OK and no two of the records share a
hash.  Whatever the log of acts, the two sets answer every question alike; and where
the rounds of a reading settle, the answers are the rule's. -/
theorem root_set_of_records {genesis : Key} {capacity capacity' : ℕ} {set set' : RootSet}
    {sign : SignOps} {hash : HashOps} {records records' : List Bytes}
    (hinit : rootSetInit genesis capacity = .ok set)
    (hinit' : rootSetInit genesis capacity' = .ok set')
    (hsame : ∀ bs, bs ∈ records ↔ bs ∈ records')
    (hok : AllAdmitted sign hash set records) (hok' : AllAdmitted sign hash set' records')
    (hinj : ∀ a ∈ records, ∀ b ∈ records, ∀ id, hash.hash a = some id → hash.hash b = some id →
      a = b) (acts : Option ActLogOps) :
    ((∀ key, rootSetMember (rootSetRun sign hash set records) acts key =
        rootSetMember (rootSetRun sign hash set' records') acts key) ∧
      (∀ key, rootSetStands (rootSetRun sign hash set records) acts key =
        rootSetStands (rootSetRun sign hash set' records') acts key) ∧
      ∀ root act, rootSetCounts (rootSetRun sign hash set records) acts root act =
        rootSetCounts (rootSetRun sign hash set' records') acts root act) ∧
      (rootSetSettles (rootSetRun sign hash set records) acts = true →
        RootRule (rootSetRun sign hash set records) acts) := by
  have h := holds_rootSetRun hinit hok hinj
  have h' := holds_rootSetRun hinit' hok' fun a ha b hb =>
    hinj a ((hsame a).2 ha) b ((hsame b).2 hb)
  obtain ⟨hmem, hlen⟩ := h.length_eq h' hsame
  exact ⟨rootAnswers_agree (h.genesis.trans h'.genesis.symm) hmem hlen h.room h'.room acts,
    rootRule_of_settles⟩

/-- The genesis root `1` adds `2`, `2` adds `3`, and `1` removes `2` with no act of it
standing. -/
def threeChanges : List Bytes :=
  [rootRecordBytes .rootAdd 1 2 0 11, rootRecordBytes .rootAdd 2 3 0 12,
    rootRecordBytes .rootRemove 1 2 0 13]

/-- In reverse and with one record twice the set settles to the same answers: `2` is a
member that is removed, and its add of `3` does not count. -/
theorem root_set_of_records_three :
    (∀ key, rootSetMember (rootSetRun acceptingSign tailHash ⟨1, [], 3⟩ threeChanges) none key =
      rootSetMember (rootSetRun acceptingSign tailHash ⟨1, [], 4⟩
        (threeChanges.reverse ++ threeChanges.take 1)) none key) ∧
      RootRule (rootSetRun acceptingSign tailHash ⟨1, [], 3⟩ threeChanges) none ∧
      rootSetMember (rootSetRun acceptingSign tailHash ⟨1, [], 3⟩ threeChanges) none 2 = true ∧
      rootSetStands (rootSetRun acceptingSign tailHash ⟨1, [], 3⟩ threeChanges) none 2 = false ∧
      rootSetMember (rootSetRun acceptingSign tailHash ⟨1, [], 3⟩ threeChanges) none 3 =
        false := by
  have hall : ∀ capacity ∈ [3, 4], ∀ order ∈ [threeChanges,
      threeChanges.reverse ++ threeChanges.take 1],
      AllAdmitted acceptingSign tailHash ⟨1, [], capacity⟩ order := by
    intro capacity hcap order horder
    refine Lib.forall_prefix fun n hn => ?_
    revert capacity order n
    decide +kernel
  have hsame : ∀ bs, bs ∈ threeChanges ↔ bs ∈ threeChanges.reverse ++ threeChanges.take 1 := by
    intro bs
    rw [List.mem_append, List.mem_reverse]
    exact ⟨Or.inl, fun h => h.elim id List.mem_of_mem_take⟩
  have hinj : ∀ a ∈ threeChanges, ∀ b ∈ threeChanges, ∀ id, tailHash.hash a = some id →
      tailHash.hash b = some id → a = b := by
    have hne : ∀ a ∈ threeChanges, ∀ b ∈ threeChanges, tailHash.hash a = tailHash.hash b →
        a = b := by
      decide +kernel
    exact fun a ha b hb id hia hib => hne a ha b hb (hia.trans hib.symm)
  obtain ⟨⟨hmember, -, -⟩, hrule⟩ := @root_set_of_records 1 3 4 ⟨1, [], 3⟩ ⟨1, [], 4⟩ acceptingSign
    tailHash threeChanges (threeChanges.reverse ++ threeChanges.take 1) rfl rfl hsame
    (hall 3 (by decide) _ (by simp)) (hall 4 (by decide) _ (by simp)) hinj none
  exact ⟨hmember, hrule (by decide +kernel), by decide +kernel, by decide +kernel,
    by decide +kernel⟩

end Chain
end Fuzznet
