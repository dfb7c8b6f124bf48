/-
# What an act may do to a group

`JudgeStep` says it once, a case each kind of change: every act `judge` takes is one of them
(`judge_cases`), and an act `groupApply` takes starts a group or makes such a step behind the
head it names (`groupApply_cases`).
-/

import Fuzznet.Groups.Apply

namespace Fuzznet
namespace Groups

open Wire

variable {g g' : Group} {a : GroupAct} {hash : Bytes32}

/-- A proposal of a change of the admins. -/
def Proposes (a : GroupAct) : Prop := a.kind = .adminAdd ∨ a.kind = .adminRemove

/-- An approval by an act's signer of the proposal `p`, at `k` of the proposals of `g`: by its
hash, by the change proposed again, or of the act's own. -/
inductive Approves (g : Group) (a : GroupAct) (hash : Bytes32) : Group → ℕ → Proposal → Prop
  | named {k : ℕ} {p : Proposal} : a.kind = .approve → g.proposals[k]? = some p →
      p.hash = a.subject → Approves g a hash g k p
  | again {k : ℕ} {p : Proposal} : Proposes a → g.proposals[k]? = some p →
      p.kind = a.kind.byte → p.subject = a.subject → Approves g a hash g k p
  | own : Proposes a → g.proposals.length ≠ proposalsMax →
      Approves g a hash
        { g with proposals := g.proposals ++ [⟨hash, a.kind.byte, a.subject, []⟩] }
        g.proposals.length ⟨hash, a.kind.byte, a.subject, []⟩

/-- A step of a group by an act. -/
inductive JudgeStep (g : Group) (a : GroupAct) (hash : Bytes32) : Group → Prop
  | add : a.kind = .add → a.signer.owner ∈ g.admins → a.subject ∉ g.members →
      g.members.length ≠ membersMax → JudgeStep g a hash
        { g with members := g.members ++ [a.subject], epoch := (g.epoch + 1) % 2 ^ 32 }
  | remove : a.kind = .remove → a.signer.owner ∈ g.admins → a.subject ∈ g.members →
      a.subject ∉ g.admins → JudgeStep g a hash (dropMember g a.subject)
  | leave : a.kind = .leave → a.signer.owner = a.subject → a.subject ∈ g.members →
      ¬(a.subject ∈ g.admins ∧ g.admins.length = 1) →
      JudgeStep g a hash (dropMember g a.subject)
  | approval {g₁ : Group} {k : ℕ} {p : Proposal} {g' : Group} : a.signer.owner ∈ g.admins →
      Approves g a hash g₁ k p → approve g₁ k p a.signer.owner = .ok g' → JudgeStep g a hash g'
  | set : a.kind = .set → a.signer.owner ∈ g.admins → a.value ≤ 1 → g.backfill ≠ a.value →
      JudgeStep g a hash { g with backfill := a.value }
  | host {g' : Group} : a.kind = .host → a.signer.owner ∈ g.members → a.value ≤ 1 →
      groupHost g (deviceKey a.signer) = none →
      addHost g a.signer.owner (deviceKey a.signer) a.seq = .ok g' → JudgeStep g a hash g'
  | hostAgain {g' : Group} : a.kind = .host → a.signer.owner ∈ g.members → a.value ≤ 1 →
      renameHost g a.signer.owner (deviceKey a.signer) a.seq (a.value ≠ 0) = .ok g' →
      JudgeStep g a hash g'
  | keys {g' : Group} : a.kind = .keys → keys g a = .ok g' → JudgeStep g a hash g'

theorem findProposal_spec {f : Proposal → Bool} {k : ℕ} {p : Proposal}
    (h : findProposal g f = some (k, p)) : g.proposals[k]? = some p ∧ f p = true := by
  unfold findProposal at h
  obtain ⟨i, hi, hp⟩ := Option.bind_eq_some_iff.1 h
  obtain ⟨q, hq, heq⟩ := Option.map_eq_some_iff.1 hp
  obtain ⟨rfl, rfl⟩ := Prod.mk.inj heq
  obtain ⟨hlt, hfound, -⟩ := List.findIdx?_eq_some_iff_getElem.1 hi
  rw [List.getElem?_eq_getElem hlt] at hq
  exact ⟨by rw [List.getElem?_eq_getElem hlt, hq], Option.some.inj hq ▸ hfound⟩

/-- What a proposal may do: an approval of the one there, or of itself. -/
theorem judge_proposes (ha : Proposes a) (h : judge g a hash = .ok g') :
    JudgeStep g a hash g' := by
  unfold judge at h
  rcases id ha with hk | hk
  all_goals
    simp only [hk] at h
    split at h
    · cases h
    next hadmin =>
    rw [not_not] at hadmin
    split at h
    · cases h
    split at h
    next k p hfound =>
      obtain ⟨hat, hp⟩ := findProposal_spec hfound
      obtain ⟨hkind, hsubject⟩ := of_decide_eq_true hp
      exact .approval hadmin (.again ha hat (hkind.trans (by rw [hk])) hsubject) h
    next =>
      split at h
      · cases h
      split at h
      · cases h
      next hroom => exact .approval hadmin (.own ha hroom) (by rw [hk]; exact h)

/-- **Every act taken is a step.** -/
theorem judge_cases (h : judge g a hash = .ok g') : JudgeStep g a hash g' := by
  cases hk : a.kind with
  | create =>
    unfold judge at h
    rw [hk] at h
    cases h
  | add =>
    unfold judge at h
    rw [hk] at h
    dsimp only at h
    split_ifs at h with hadmin hnew hroom
    obtain rfl := Except.ok.inj h
    exact .add hk hadmin hnew hroom
  | remove =>
    unfold judge at h
    rw [hk] at h
    dsimp only at h
    split_ifs at h with hadmin hmember hfree
    obtain rfl := Except.ok.inj h
    exact .remove hk hadmin hmember hfree
  | leave =>
    unfold judge at h
    rw [hk] at h
    dsimp only at h
    split_ifs at h with hown hmember hlast
    obtain rfl := Except.ok.inj h
    exact .leave hk (not_not.1 hown) hmember hlast
  | adminAdd => exact judge_proposes (.inl hk) h
  | adminRemove => exact judge_proposes (.inr hk) h
  | approve =>
    unfold judge at h
    rw [hk] at h
    dsimp only at h
    split at h
    · cases h
    next hadmin =>
    split at h
    next k p hfound =>
      obtain ⟨hat, hp⟩ := findProposal_spec hfound
      exact .approval (not_not.1 hadmin) (.named hk hat (of_decide_eq_true hp)) h
    next => cases h
  | set =>
    unfold judge at h
    rw [hk] at h
    dsimp only at h
    split_ifs at h with hadmin hvalue hsame
    obtain rfl := Except.ok.inj h
    rw [not_or, not_lt] at hvalue
    exact .set hk hadmin hvalue.2 hsame
  | host =>
    unfold judge at h
    rw [hk] at h
    dsimp only at h
    split_ifs at h with hmember hvalue hlisted
    · exact .hostAgain hk hmember (not_lt.1 hvalue) h
    · exact .host hk hmember (not_lt.1 hvalue)
        (Option.not_isSome_iff_eq_none.1 hlisted) h
  | keys =>
    unfold judge at h
    rw [hk] at h
    exact .keys hk h

/-- The group a `create` starts. -/
def created (a : GroupAct) (hash : Bytes32) : Group :=
  { blank with
    id := hash, head := hash, seq := 1, epoch := 1, backfill := 1
    members := [a.signer.owner], admins := [a.signer.owner]
    hosts := [⟨a.signer.owner, deviceKey a.signer, 0, 1, 0, 1⟩] }

theorem groupApply_create (ha : a.kind = .create) (hseq : a.seq = 0) (hgroup : a.group = 0)
    (hprev : a.prev = 0) : groupApply g a hash = (.ok (), created a hash) := by
  unfold groupApply
  rw [if_pos ha, if_neg (by simp [hseq, hgroup, hprev])]
  rfl

/-- **What an act taken comes to**: a group started, or a step behind its head. -/
theorem groupApply_cases (h : groupApply g a hash = (.ok (), g')) :
    a.kind = .create ∧ a.seq = 0 ∧ a.group = 0 ∧ a.prev = 0 ∧ g' = created a hash ∨
    a.kind ≠ .create ∧ g.seq ≠ 0 ∧ a.seq = g.seq ∧ a.group = g.id ∧ a.prev = g.head ∧
      ∃ next, JudgeStep g a hash next ∧
        g' = { next with head := hash, seq := (next.seq + 1) % 2 ^ 32 } := by
  by_cases hk : a.kind = .create
  · by_cases hplace : a.seq ≠ 0 ∨ a.group ≠ 0 ∨ a.prev ≠ 0
    · unfold groupApply at h
      rw [if_pos hk, if_pos hplace] at h
      cases h
    · rw [not_or, not_or, not_not, not_not, not_not] at hplace
      rw [groupApply_create hk hplace.1 hplace.2.1 hplace.2.2] at h
      exact .inl ⟨hk, hplace.1, hplace.2.1, hplace.2.2, (Prod.mk.inj h).2.symm⟩
  · unfold groupApply at h
    rw [if_neg hk] at h
    split at h
    · cases h
    next hplace =>
    simp only [not_or, not_not] at hplace
    split at h
    · cases h
    next next hjudge =>
    exact .inr ⟨hk, hplace.1, hplace.2.1, hplace.2.2.1, hplace.2.2.2, next, judge_cases hjudge,
      (Prod.mk.inj h).2.symm⟩

/-- **An act refused leaves the group.** -/
theorem groupApply_refused {e : GroupLogErr} (h : (groupApply g a hash).1 = .error e) :
    (groupApply g a hash).2 = g := by
  by_cases hk : a.kind = .create
  · by_cases hplace : a.seq ≠ 0 ∨ a.group ≠ 0 ∨ a.prev ≠ 0
    · unfold groupApply
      rw [if_pos hk, if_pos hplace]
    · rw [not_or, not_or, not_not, not_not, not_not] at hplace
      rw [groupApply_create hk hplace.1 hplace.2.1 hplace.2.2] at h
      cases h
  · unfold groupApply at h ⊢
    rw [if_neg hk] at h ⊢
    split
    · rfl
    next hplace =>
    rw [if_neg hplace] at h
    cases hjudge : judge g a hash with
    | error e => rfl
    | ok next =>
      rw [hjudge] at h
      cases h

end Groups
end Fuzznet
