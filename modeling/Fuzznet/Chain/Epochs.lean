/-
# The open epoch, and what a verdict depends on

`chain/revocation.c`: `epoch_closed`, `open_epoch`, `judge_hop`.

`open_epoch` asks only `first`, the epochs counted entries name and the ones
past them.  `openFrom_le` and `openFrom_open` say that this finds the least of
*all* 64-bit epochs from `first` on that is not closed: between two epochs
that no counted entry names or follows, closure does not change
(`openEpoch_least`).  So the
answer is settled by which epochs are closed, and a verdict by the root's pass
and the tallies (`judgeHop_congr`): neither the order of the entries nor a
field the tallies do not read can show in it.
-/

import Fuzznet.Chain.Judge

namespace Fuzznet
namespace Chain

open Wire

/-! ### Epochs in order -/

theorem le_maxEpoch (c : UInt64) : c ≤ maxEpoch := by
  have hc := c.toNat_lt
  rw [UInt64.le_iff_toNat_le]
  show c.toNat ≤ 18446744073709551615
  omega

theorem lt_maxEpoch {c : UInt64} (h : c ≠ maxEpoch) : c < maxEpoch :=
  UInt64.lt_of_le_of_ne (le_maxEpoch c) h

/-- Every epoch but the last has one past it. -/
theorem toNat_add_one {c : UInt64} (h : c ≠ maxEpoch) : (c + 1).toNat = c.toNat + 1 := by
  have hlt : c.toNat < 18446744073709551615 := UInt64.lt_iff_toNat_lt.1 (lt_maxEpoch h)
  rw [UInt64.toNat_add]
  show (c.toNat + 1) % 2 ^ 64 = c.toNat + 1
  omega

theorem lt_add_one_epoch {c : UInt64} (h : c ≠ maxEpoch) : c < c + 1 := by
  rw [UInt64.lt_iff_toNat_lt, toNat_add_one h]
  omega

theorem add_one_le_epoch {c d : UInt64} (h : c < d) : c + 1 ≤ d := by
  have hne : c ≠ maxEpoch := by
    rintro rfl
    exact UInt64.not_le.2 h (le_maxEpoch d)
  rw [UInt64.lt_iff_toNat_lt] at h
  rw [UInt64.le_iff_toNat_le, toNat_add_one hne]
  omega

theorem lt_of_add_one_le {c d : UInt64} (hc : c ≠ maxEpoch) (h : c + 1 ≤ d) : c < d :=
  UInt64.lt_of_lt_of_le (lt_add_one_epoch hc) h

section Search

variable {closed : UInt64 → Bool} {first : UInt64}

/-- What the search has kept is at or past `first` and open. -/
def BestOpen (closed : UInt64 → Bool) (first : UInt64) (best : Option UInt64) : Prop :=
  ∀ b ∈ best, first ≤ b ∧ closed b = false

/-- What the search has kept is at or below `c`. -/
def BestLe (best : Option UInt64) (c : UInt64) : Prop := ∃ b ∈ best, b ≤ c

variable {c : UInt64} {best : Option UInt64}

theorem offerEpoch_open (h : BestOpen closed first best) (c : UInt64) :
    BestOpen closed first (offerEpoch closed first best c) := by
  unfold offerEpoch
  split_ifs with hc
  · rintro b ⟨⟩
    exact ⟨hc.1, hc.2.2⟩
  · exact h

theorem offerEpoch_le {d : UInt64} (h : BestLe best d) (c : UInt64) :
    BestLe (offerEpoch closed first best c) d := by
  obtain ⟨b, hb, hbd⟩ := h
  unfold offerEpoch
  split_ifs with hc
  · rw [Option.mem_def.1 hb] at hc
    have hcb : c < b := by simpa using hc.2.1
    exact ⟨c, rfl, UInt64.le_of_lt (UInt64.lt_of_lt_of_le hcb hbd)⟩
  · exact ⟨b, hb, hbd⟩

/-- An open candidate is not passed over. -/
theorem offerEpoch_self (best : Option UInt64) (hc : first ≤ c) (ho : closed c = false) :
    BestLe (offerEpoch closed first best c) c := by
  unfold offerEpoch
  split_ifs with h
  · exact ⟨c, rfl, UInt64.le_refl c⟩
  · cases best with
    | none => exact absurd ⟨hc, rfl, ho⟩ h
    | some b =>
      have hnot : ¬c < b := fun hlt => h ⟨hc, by simpa using hlt, ho⟩
      exact ⟨b, rfl, UInt64.not_lt.1 hnot⟩

theorem offerEntry_open (h : BestOpen closed first best) (a : UInt64) :
    BestOpen closed first (offerEntry closed first best a) := by
  unfold offerEntry
  split_ifs
  · exact offerEpoch_open h a
  · exact offerEpoch_open (offerEpoch_open h a) _

theorem offerEntry_le {d : UInt64} (h : BestLe best d) (a : UInt64) :
    BestLe (offerEntry closed first best a) d := by
  unfold offerEntry
  split_ifs
  · exact offerEpoch_le h a
  · exact offerEpoch_le (offerEpoch_le h a) _

/-- Neither candidate of an entry is passed over. -/
theorem offerEntry_self (best : Option UInt64) {a c : UInt64} (hc : first ≤ c)
    (ho : closed c = false) (hca : c = a ∨ (a ≠ maxEpoch ∧ c = a + 1)) :
    BestLe (offerEntry closed first best a) c := by
  unfold offerEntry
  rcases hca with rfl | ⟨ha, rfl⟩
  · split_ifs
    · exact offerEpoch_self best hc ho
    · exact offerEpoch_le (offerEpoch_self best hc ho) _
  · rw [if_neg ha]
    exact offerEpoch_self _ hc ho

variable {counted : Revocation → Bool}

theorem foldl_open (h : BestOpen closed first best) (es : List Revocation) :
    BestOpen closed first (es.foldl
      (fun best e => if counted e then offerEntry closed first best e.epoch else best) best) := by
  induction es generalizing best with
  | nil => exact h
  | cons e es ih =>
    rw [List.foldl_cons]
    split_ifs
    · exact ih (offerEntry_open h _)
    · exact ih h

theorem foldl_le {d : UInt64} (h : BestLe best d) (es : List Revocation) : BestLe (es.foldl
      (fun best e => if counted e then offerEntry closed first best e.epoch else best) best) d := by
  induction es generalizing best with
  | nil => exact h
  | cons e es ih =>
    rw [List.foldl_cons]
    split_ifs
    · exact ih (offerEntry_le h _)
    · exact ih h

/-- No candidate of a counted entry is passed over. -/
theorem foldl_self (best : Option UInt64) {es : List Revocation} {e : Revocation} (he : e ∈ es)
    (hcnt : counted e = true) (hc : first ≤ c) (ho : closed c = false)
    (hca : c = e.epoch ∨ (e.epoch ≠ maxEpoch ∧ c = e.epoch + 1)) :
    BestLe (es.foldl
      (fun best e => if counted e then offerEntry closed first best e.epoch else best) best) c := by
  induction es generalizing best with
  | nil => simp at he
  | cons e' es ih =>
    rw [List.foldl_cons]
    rcases List.mem_cons.1 he with rfl | he
    · rw [if_pos hcnt]
      exact foldl_le (offerEntry_self best hc ho hca) es
    · exact ih _ he

end Search

variable {s : RevocationStore} {h : HopQuestion} {q : ℕ}

/-- Where more counted entries satisfy one test than another, an entry
satisfies the one and not the other. -/
theorem exists_of_tally_lt {p p' : Bool → UInt64 → Bool} (hlt : tally s h p' < tally s h p) :
    ∃ e ∈ s.entries, counts s h e = true ∧ p e.withdrawn e.epoch = true ∧
      p' e.withdrawn e.epoch = false := by
  by_contra hno
  push Not at hno
  refine absurd (List.countP_mono_left fun e he hpe => ?_) (not_le_of_gt hlt)
  simp only [Bool.and_eq_true] at hpe ⊢
  exact ⟨hpe.1, by simpa using hno e he hpe.1 hpe.2⟩

/-- A tally grows with its test. -/
theorem tally_mono {p p' : Bool → UInt64 → Bool} (hp : ∀ w a, p w a → p' w a) :
    tally s h p ≤ tally s h p' := by
  refine List.countP_mono_left fun e _ hpe => ?_
  simp only [Bool.and_eq_true] at hpe ⊢
  exact ⟨hpe.1, hp _ _ hpe.2⟩

/-- **Closure changes only at a candidate:** an epoch that is open behind a
closed one is named by a counted entry, or follows one that is. -/
theorem candidate_of_closed_open {c : UInt64}
    (hcl : epochClosed s h c q = true) (hop : epochClosed s h (c + 1) q = false) :
    ∃ e ∈ s.entries, counts s h e = true ∧
      (c + 1 = e.epoch ∨ (e.epoch ≠ maxEpoch ∧ c + 1 = e.epoch + 1)) := by
  unfold epochClosed at hcl hop
  have hlt : tally s h (leftEpoch (c + 1)) < tally s h (leftEpoch c) := by
    simp only [decide_eq_true_eq, decide_eq_false_iff_not, not_le] at hcl hop
    omega
  obtain ⟨e, he, hcnt, hin, hout⟩ := exists_of_tally_lt hlt
  refine ⟨e, he, hcnt, ?_⟩
  simp only [leftEpoch, Bool.or_eq_true, decide_eq_true_eq, Bool.and_eq_true, Bool.or_eq_false_iff,
    decide_eq_false_iff_not, Bool.and_eq_false_iff] at hin hout
  rcases hin with hpast | ⟨rfl, -⟩
  · exact Or.inl (UInt64.le_antisymm (add_one_le_epoch hpast) (UInt64.not_lt.1 hout.1))
  · -- The entry left the epoch itself, which is not the last: past that nothing is left.
    refine Or.inr ⟨fun hmax => hout.1 ?_, rfl⟩
    rw [hmax]
    decide

/-- Below every open epoch from `first` on, the search finds one. -/
theorem searchOpen_le {first : UInt64} (c : UInt64) (hc : first ≤ c)
    (ho : epochClosed s h c q = false) : BestLe (searchOpen s h q first) c := by
  -- Down from `c` to `first`, as far as the epochs stay open.
  induction hn : c.toNat - first.toNat generalizing c with
  | zero =>
    have hle : c ≤ first := by
      rw [UInt64.le_iff_toNat_le]
      omega
    obtain rfl : first = c := UInt64.le_antisymm hc hle
    unfold searchOpen
    rw [ho]
    exact foldl_le ⟨first, rfl, UInt64.le_refl first⟩ _
  | succ n ih =>
    have hadd : c - 1 + 1 = c := UInt64.sub_add_cancel c 1
    have hsub : (c - 1).toNat = c.toNat - 1 := by
      refine UInt64.toNat_sub_of_le _ _ (UInt64.le_iff_toNat_le.2 ?_)
      show 1 ≤ c.toNat
      omega
    by_cases hp : epochClosed s h (c - 1) q = true
    · obtain ⟨e, he, hcnt, hca⟩ := candidate_of_closed_open hp (by rw [hadd]; exact ho)
      rw [hadd] at hca
      exact foldl_self _ he hcnt hc ho hca
    · have hfirst : first ≤ c - 1 := by
        rw [UInt64.le_iff_toNat_le]
        omega
      have hbelow : c - 1 ≤ c := by
        rw [UInt64.le_iff_toNat_le]
        omega
      obtain ⟨b, hb, hbc⟩ := ih (c - 1) hfirst (by simpa using hp) (by omega)
      exact ⟨b, hb, UInt64.le_trans hbc hbelow⟩

/-- What the search finds is open. -/
theorem searchOpen_open (first : UInt64) :
    BestOpen (fun c => epochClosed s h c q) first (searchOpen s h q first) := by
  refine foldl_open ?_ s.entries
  split_ifs with h0
  · rintro b ⟨⟩
  · rintro b ⟨⟩
    exact ⟨UInt64.le_refl first, by simpa using h0⟩

/-- **What `open_epoch` finds is the least:** no epoch from `first` on below it
is open. -/
theorem openFrom_le {first c : UInt64} (hc : first ≤ c) (ho : epochClosed s h c q = false) :
    openFrom s h q first ≤ c := by
  obtain ⟨b, hb, hbc⟩ := searchOpen_le c hc ho
  unfold openFrom
  rw [Option.mem_def.1 hb]
  exact hbc

/-- **What `open_epoch` finds is open** and at or past `first`, when any epoch
from `first` on is. -/
theorem openFrom_open {first c : UInt64} (hc : first ≤ c) (ho : epochClosed s h c q = false) :
    first ≤ openFrom s h q first ∧ epochClosed s h (openFrom s h q first) q = false := by
  obtain ⟨b, hb, -⟩ := searchOpen_le c hc ho
  unfold openFrom
  rw [Option.mem_def.1 hb]
  exact searchOpen_open first b hb

/-- With every epoch from `first` on closed, `open_epoch` answers the last. -/
theorem openFrom_none {first : UInt64} (hall : ∀ c, first ≤ c → epochClosed s h c q = true) :
    openFrom s h q first = maxEpoch := by
  unfold openFrom
  cases hb : searchOpen s h q first with
  | none => rfl
  | some b =>
    obtain ⟨hfb, hbo⟩ := searchOpen_open first b hb
    exact absurd (hall b hfb) (by simpa using hbo)

/-- The least open epoch is what `open_epoch` finds. -/
theorem openFrom_eq {first c : UInt64} (hc : first ≤ c) (ho : epochClosed s h c q = false)
    (hmin : ∀ d, first ≤ d → d < c → epochClosed s h d q = true) : openFrom s h q first = c := by
  have hle := openFrom_le hc ho
  obtain ⟨hf, hop⟩ := openFrom_open hc ho
  by_contra hne
  have hlt : openFrom s h q first < c := UInt64.lt_of_le_of_ne hle hne
  rw [hmin _ hf hlt] at hop
  exact absurd hop (by simp)

section Congruence

variable {s' : RevocationStore} {h' : HopQuestion}

/-- **The open epoch is settled by which epochs are closed.** -/
theorem openFrom_congr (hcl : ∀ c, epochClosed s h c q = epochClosed s' h' c q) (first : UInt64) :
    openFrom s h q first = openFrom s' h' q first := by
  by_cases hex : ∃ c, first ≤ c ∧ epochClosed s h c q = false
  · obtain ⟨c, hc, ho⟩ := hex
    obtain ⟨hf, hop⟩ := openFrom_open hc ho
    refine (openFrom_eq (s := s') (h := h') hf (by rw [← hcl]; exact hop) fun d hd hdlt => ?_).symm
    rw [← hcl]
    by_contra hdo
    exact UInt64.not_le.2 hdlt (openFrom_le hd (by simpa using hdo))
  · push Not at hex
    have hall : ∀ c, first ≤ c → epochClosed s h c q = true := fun c hc => by simpa using hex c hc
    rw [openFrom_none hall, openFrom_none fun c hc => by rw [← hcl]; exact hall c hc]

/-- Two questions about two stores that every tally answers alike. -/
def SameTallies (s s' : RevocationStore) (h h' : HopQuestion) : Prop :=
  ∀ p : Bool → UInt64 → Bool, tally s h p = tally s' h' p

theorem SameTallies.openEpoch_eq (ht : SameTallies s s' h h') (hf : h.floor = h'.floor) (q : ℕ) :
    openEpoch s h q = openEpoch s' h' q := by
  have hcl : ∀ c, epochClosed s h c q = epochClosed s' h' c q := fun c => by
    unfold epochClosed
    rw [ht]
  unfold openEpoch
  rw [hf]
  cases h'.floor with
  | none => exact openFrom_congr hcl 0
  | some f => simp only [openFrom_congr hcl]

theorem SameTallies.judgeVotes_eq (ht : SameTallies s s' h h') (hf : h.floor = h'.floor) (q : ℕ) :
    judgeVotes s h q = judgeVotes s' h' q := by
  unfold judgeVotes latchedIn
  simp only [ht _, ht.openEpoch_eq hf]

/-- **A verdict is settled by the root's pass and the tallies.** -/
theorem judgeHop_congr {rootKey rootKey' : Option Key}
    (hroot : (rootPass s h rootKey).1 = (rootPass s' h' rootKey').1)
    (hfloor : (rootPass s h rootKey).1 = false →
      (rootPass s h rootKey).2 = (rootPass s' h' rootKey').2)
    (ht : ∀ floor, SameTallies s s' { h with floor := floor } { h' with floor := floor }) (q : ℕ) :
    judgeHop s h rootKey q = judgeHop s' h' rootKey' q := by
  unfold judgeHop
  simp only [← hroot]
  split_ifs with hb
  · rfl
  · rw [hfloor (by simpa using hb)]
    exact (ht _).judgeVotes_eq rfl q

end Congruence

/-- Past the floor an epoch is closed by the same votes with it and without. -/
theorem epochClosed_floor {f c : UInt64} (hc : f < c) :
    epochClosed s { h with floor := some f } c q = epochClosed s { h with floor := none } c q := by
  unfold epochClosed tally
  congr 2
  refine List.countP_congr fun e _ => ?_
  simp only [counts, undone, entitled, leftEpoch, Option.any_some, Option.any_none, Bool.and_eq_true,
    Bool.or_eq_true, decide_eq_true_eq, Bool.not_eq_true', decide_eq_false_iff_not]
  -- An entry that left an epoch past the floor was cast past the floor.
  have hpast : (c < e.epoch ∨ e.epoch = c ∧ e.withdrawn = true) → ¬e.epoch ≤ f := by
    rintro (hlt | ⟨rfl, -⟩)
    · exact UInt64.not_le.2 (UInt64.lt_trans hc hlt)
    · exact UInt64.not_le.2 hc
  constructor
  · rintro ⟨⟨⟨hpair, -⟩, hent⟩, hleft⟩
    exact ⟨⟨⟨hpair, trivial⟩, hent⟩, hleft⟩
  · rintro ⟨⟨⟨hpair, -⟩, hent⟩, hleft⟩
    exact ⟨⟨⟨hpair, hpast hleft⟩, hent⟩, hleft⟩

/-- The next vote is cast past the root's undo. -/
theorem lt_openEpoch_floor {f c : UInt64} (hc : c ≤ f) (hmax : c ≠ maxEpoch) :
    c < openEpoch s { h with floor := some f } q := by
  have hlast : c < maxEpoch := lt_maxEpoch hmax
  unfold openEpoch
  simp only
  split_ifs with hf
  · exact hlast
  · by_cases hex : ∃ d, f + 1 ≤ d ∧ epochClosed s { h with floor := some f } d q = false
    · obtain ⟨d, hd, ho⟩ := hex
      have hfloor := lt_of_add_one_le hf (openFrom_open hd ho).1
      exact UInt64.lt_of_le_of_lt hc hfloor
    · push Not at hex
      rw [openFrom_none fun d hd => by simpa using hex d hd]
      exact hlast

/-- **An undo that only settles closed epochs moves no vote:** the open epoch
past it is the open epoch without it. -/
theorem openEpoch_floor {f : UInt64}
    (hcl : ∀ c, c ≤ f → c ≠ maxEpoch → epochClosed s { h with floor := none } c q = true) :
    openEpoch s { h with floor := some f } q = openEpoch s { h with floor := none } q := by
  unfold openEpoch
  by_cases hex : ∃ c, epochClosed s { h with floor := none } c q = false
  · obtain ⟨c, ho⟩ := hex
    obtain ⟨-, hop⟩ := openFrom_open (UInt64.zero_le : 0 ≤ c) ho
    have hle : ∀ d, epochClosed s { h with floor := none } d q = false →
        openFrom s { h with floor := none } q 0 ≤ d := fun d hd =>
      openFrom_le UInt64.zero_le hd
    by_cases hf : f = maxEpoch
    · simp only [hf, if_true]
      by_contra hne
      exact absurd (hcl _ (hf ▸ le_maxEpoch _) (Ne.symm hne)) (by simp [hop])
    · simp only [hf, if_false]
      have hlt : f < openFrom s { h with floor := none } q 0 := by
        by_contra hnot
        have hof : openFrom s { h with floor := none } q 0 ≤ f := UInt64.not_lt.1 hnot
        have hlast : openFrom s { h with floor := none } q 0 ≠ maxEpoch := fun heq =>
          hf (UInt64.le_antisymm (le_maxEpoch f) (heq ▸ hof))
        exact absurd (hcl _ hof hlast) (by simp [hop])
      refine openFrom_eq (add_one_le_epoch hlt) (by rw [epochClosed_floor hlt]; exact hop)
        fun d hd hdlt => ?_
      rw [epochClosed_floor (lt_of_add_one_le hf hd)]
      by_contra hdo
      exact UInt64.not_le.2 hdlt (hle d (by simpa using hdo))
  · push Not at hex
    have hall : ∀ c, epochClosed s { h with floor := none } c q = true := fun c => by
      simpa using hex c
    simp only [openFrom_none fun c _ => hall c]
    split_ifs with hf
    · rfl
    · refine openFrom_none fun c hc => ?_
      rw [epochClosed_floor (lt_of_add_one_le hf hc)]
      exact hall c

/-! ### The least open epoch -/

/-- The epochs a question asks after: all, or those past the root's undo. -/
def Asked (h : HopQuestion) (c : UInt64) : Prop := ∀ f ∈ h.floor, f < c

/-- The epochs that are tried: the first asked after, and those that a counted entry
names or that follow one. -/
def Tried (s : RevocationStore) (h : HopQuestion) (c : UInt64) : Prop :=
  (∀ d, Asked h d → c ≤ d) ∨ ∃ e ∈ s.entries, counts s h e = true ∧
    (c = e.epoch ∨ e.epoch ≠ maxEpoch ∧ c = e.epoch + 1)

/-- Where there is an epoch asked after, `open_epoch` searches from the least. -/
theorem openEpoch_eq_openFrom {c : UInt64} (hc : Asked h c) :
    ∃ first, (∀ d, Asked h d ↔ first ≤ d) ∧ openEpoch s h q = openFrom s h q first := by
  unfold openEpoch
  cases hf : h.floor with
  | none => exact ⟨0, fun d => by simp [Asked, hf, UInt64.zero_le], rfl⟩
  | some f =>
    have hne : f ≠ maxEpoch := by
      rintro rfl
      exact UInt64.not_le.2 (hc maxEpoch hf) (le_maxEpoch c)
    refine ⟨f + 1, fun d => ?_, if_neg hne⟩
    simp only [Asked, hf, Option.mem_def, Option.some.injEq, forall_eq']
    exact ⟨add_one_le_epoch, lt_of_add_one_le hne⟩

/-- **`open_epoch` is the least open epoch** of all 64-bit ones asked after, and it is one
of those tried; it is the last epoch where all are closed. -/
theorem openEpoch_least (s : RevocationStore) (h : HopQuestion) (q : ℕ) :
    ((∃ c, Asked h c ∧ epochClosed s h c q = false) →
      Asked h (openEpoch s h q) ∧ epochClosed s h (openEpoch s h q) q = false ∧
        (∀ c, Asked h c → epochClosed s h c q = false → openEpoch s h q ≤ c) ∧
        Tried s h (openEpoch s h q)) ∧
    ((∀ c, Asked h c → epochClosed s h c q = true) → openEpoch s h q = maxEpoch) := by
  refine ⟨fun ⟨c, hc, ho⟩ => ?_, fun hall => ?_⟩
  · obtain ⟨first, hasked, heq⟩ := @openEpoch_eq_openFrom s h q c hc
    rw [heq]
    obtain ⟨hle, hopen⟩ := openFrom_open ((hasked c).1 hc) ho
    have hleast : ∀ d, Asked h d → epochClosed s h d q = false → openFrom s h q first ≤ d :=
      fun d hd hdo => openFrom_le ((hasked d).1 hd) hdo
    refine ⟨(hasked _).2 hle, hopen, hleast, ?_⟩
    by_cases hfirst : openFrom s h q first = first
    · exact .inl fun d hd => hfirst.symm ▸ (hasked d).1 hd
    · -- The epoch before the answer is asked after and closed.
      generalize openFrom s h q first = b at hle hopen hleast hfirst
      have hlt : first.toNat < b.toNat :=
        UInt64.lt_iff_toNat_lt.1 (UInt64.lt_of_le_of_ne hle (Ne.symm hfirst))
      have hadd : b - 1 + 1 = b := UInt64.sub_add_cancel b 1
      have hsub : (b - 1).toNat = b.toNat - 1 := by
        refine UInt64.toNat_sub_of_le _ _ (UInt64.le_iff_toNat_le.2 ?_)
        show 1 ≤ b.toNat
        omega
      have hasked' : Asked h (b - 1) := by
        rw [hasked, UInt64.le_iff_toNat_le]
        omega
      have hclosed : epochClosed s h (b - 1) q = true := by
        by_contra hno
        have hback := UInt64.le_iff_toNat_le.1 (hleast _ hasked' (by simpa using hno))
        omega
      have hcand := candidate_of_closed_open hclosed (hadd.symm ▸ hopen)
      rw [hadd] at hcand
      exact .inr hcand
  · by_cases hex : ∃ c, Asked h c
    · obtain ⟨c, hc⟩ := hex
      obtain ⟨first, hasked, heq⟩ := @openEpoch_eq_openFrom s h q c hc
      rw [heq]
      exact openFrom_none fun d hd => hall d ((hasked d).2 hd)
    · -- Nothing is past an undo in the last epoch.
      unfold openEpoch
      cases hf : h.floor with
      | none => exact absurd ⟨0, fun f hff => by simp [hf] at hff⟩ hex
      | some f =>
        refine if_pos ?_
        by_contra hne
        exact hex ⟨maxEpoch, fun f' hf' => by
          obtain rfl := Option.some.inj (hf.symm.trans hf')
          exact lt_maxEpoch hne⟩

end Chain
end Fuzznet
