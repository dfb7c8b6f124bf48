/-
# The group of a log

A log is a `create` and the acts taken behind it (`Accepted`), and says one group.  What every
group of a log keeps is `Kept`: its tables, its place, an epoch for every change of its
members (`JudgeStep.epoch`), and commitments in the slots of epochs up to the current one,
which never change once set (`Accepted.keptOr`).
-/

import Fuzznet.Groups.Tables

namespace Fuzznet
namespace Groups

open Wire

variable {g g' : Group} {a : GroupAct} {hash : Bytes32} {log : List (GroupAct × Bytes32)}

/-! ## Logs -/

/-- The group of a log's acts, each with its hash, every one of them taken. -/
inductive Accepted : List (GroupAct × Bytes32) → Group → Prop
  | create {g g' : Group} {a : GroupAct} {hash : Bytes32} : a.kind = .create →
      groupApply g a hash = (.ok (), g') → Accepted [(a, hash)] g'
  | next {log : List (GroupAct × Bytes32)} {g g' : Group} {a : GroupAct} {hash : Bytes32} :
      Accepted log g → a.kind ≠ .create → groupApply g a hash = (.ok (), g') →
      Accepted (log ++ [(a, hash)]) g'

theorem Accepted.ne_nil (h : Accepted log g) : log ≠ [] := by
  cases h with
  | create _ _ => exact List.cons_ne_nil _ _
  | next _ _ _ => exact List.append_ne_nil_of_right_ne_nil _ (List.cons_ne_nil _ _)

/-- What the acts of a log come to, one behind the other. -/
def logGroup (log : List (GroupAct × Bytes32)) : Group :=
  log.foldl (fun g x => (groupApply g x.1 x.2).2) blank

theorem logGroup_snoc (log : List (GroupAct × Bytes32)) (a : GroupAct) (hash : Bytes32) :
    logGroup (log ++ [(a, hash)]) = (groupApply (logGroup log) a hash).2 := by
  unfold logGroup
  rw [List.foldl_append, List.foldl_cons, List.foldl_nil]

theorem apply_of_create (ha : a.kind = .create) (h : groupApply g a hash = (.ok (), g')) :
    a.seq = 0 ∧ a.group = 0 ∧ a.prev = 0 ∧ g' = created a hash := by
  rcases groupApply_cases h with ⟨-, hcreate⟩ | ⟨hne, -⟩
  · exact hcreate
  · exact absurd ha hne

theorem Accepted.eq (h : Accepted log g) : g = logGroup log := by
  induction h with
  | create ha happ =>
    obtain ⟨hseq, hgroup, hprev, rfl⟩ := apply_of_create ha happ
    show _ = (groupApply blank _ _).2
    rw [groupApply_create ha hseq hgroup hprev]
  | next _ _ happ ih =>
    rw [logGroup_snoc, ← ih, happ]

/-- A log says one group. -/
theorem Accepted.unique (h : Accepted log g) (h' : Accepted log g') : g = g' :=
  h.eq.trans h'.eq.symm

/-- The last act of a log of more than one. -/
theorem Accepted.last (h : Accepted (log ++ [(a, hash)]) g') (hlog : log ≠ []) :
    ∃ g, Accepted log g ∧ a.kind ≠ .create ∧ groupApply g a hash = (.ok (), g') := by
  generalize hsnoc : log ++ [(a, hash)] = whole at h
  cases h with
  | create _ _ =>
    have hlen := congrArg List.length hsnoc
    rw [List.length_append, List.length_singleton, List.length_singleton] at hlen
    exact absurd (List.length_eq_zero_iff.1 (by omega)) hlog
  | next hprev hkind happ =>
    obtain ⟨rfl, heq⟩ := List.append_inj' hsnoc rfl
    obtain ⟨rfl, rfl⟩ := Prod.mk.inj (List.cons.inj heq).1
    exact ⟨_, hprev, hkind, happ⟩

/-- What acts behind a group come to, every one of them taken and none a `create`. -/
def takeAll (g : Group) : List (GroupAct × Bytes32) → Option Group
  | [] => some g
  | (a, hash) :: more =>
    if a.kind = .create then none
    else
      match groupApply g a hash with
      | (.ok (), g') => takeAll g' more
      | (.error _, _) => none

theorem Accepted.append {more : List (GroupAct × Bytes32)} (h : Accepted log g)
    (hmore : takeAll g more = some g') : Accepted (log ++ more) g' := by
  induction more generalizing log g with
  | nil =>
    obtain rfl := Option.some.inj hmore
    rwa [List.append_nil]
  | cons x more ih =>
    obtain ⟨a, hash⟩ := x
    unfold takeAll at hmore
    split at hmore
    · cases hmore
    next hkind =>
    split at hmore
    next g₁ happ =>
      have hlog := ih (h.next hkind happ) hmore
      rwa [List.append_assoc] at hlog
    next => cases hmore

/-! ## What a step leaves -/

theorem enact_frame (g : Group) (p : Proposal) : enact g p =
    { g with admins := (enact g p).admins, proposals := (enact g p).proposals } := by
  unfold enact
  split_ifs <;> rfl

theorem approve_frame {k : ℕ} {p : Proposal} {who : Key} (h : approve g k p who = .ok g') :
    g' = { g with admins := g'.admins, proposals := g'.proposals } := by
  obtain ⟨-, rfl | ⟨-, rfl⟩⟩ := approve_cases h
  · rfl
  · exact enact_frame _ _

theorem Approves.frame {g₁ : Group} {k : ℕ} {p : Proposal} (h : Approves g a hash g₁ k p) :
    g₁ = { g with proposals := g₁.proposals } := by
  cases h <;> rfl

theorem addHost_frame {owner key : Key} {seq : ℕ} (h : addHost g owner key seq = .ok g') :
    g' = { g with hosts := g.hosts ++ [⟨owner, key, seq, g.epoch, 0, g.epoch⟩] } := by
  unfold addHost at h
  split_ifs at h
  exact (Except.ok.inj h).symm

theorem dropMember_members (g : Group) (subject : Key) :
    (dropMember g subject).members = g.members.erase subject := by
  unfold dropMember dropHostsOf
  dsimp only
  split <;> rfl

theorem dropMember_admins (g : Group) (subject : Key) :
    (dropMember g subject).admins = g.admins.erase subject := by
  unfold dropMember dropHostsOf
  dsimp only
  split
  · rfl
  next hfree => exact (List.erase_of_not_mem hfree).symm

theorem dropMember_proposals (g : Group) (subject : Key) :
    (dropMember g subject).proposals = if subject ∈ g.admins then [] else g.proposals := by
  unfold dropMember dropHostsOf
  dsimp only
  split <;> rfl

theorem dropMember_frame (g : Group) (subject : Key) : dropMember g subject =
    { g with
      epoch := (g.epoch + 1) % 2 ^ 32
      members := (dropMember g subject).members
      admins := (dropMember g subject).admins
      proposals := (dropMember g subject).proposals
      hosts := (dropMember g subject).hosts } := by
  unfold dropMember dropHostsOf
  dsimp only
  split <;> rfl

/-- A step leaves a group's id and its place in the log. -/
theorem JudgeStep.place (h : JudgeStep g a hash g') (hepoch : g.epoch < 2 ^ 32) :
    g'.id = g.id ∧ g'.seq = g.seq := by
  cases h with
  | add _ _ _ _ => exact ⟨rfl, rfl⟩
  | remove _ _ _ _ =>
    rw [dropMember_frame]
    exact ⟨rfl, rfl⟩
  | leave _ _ _ _ =>
    rw [dropMember_frame]
    exact ⟨rfl, rfl⟩
  | approval _ happroves happrove =>
    rw [approve_frame happrove, happroves.frame]
    exact ⟨rfl, rfl⟩
  | set _ _ _ _ => exact ⟨rfl, rfl⟩
  | host _ _ _ _ hadd =>
    rw [addHost_frame hadd]
    exact ⟨rfl, rfl⟩
  | hostAgain _ _ _ hrename =>
    obtain ⟨h₀, -, -, rfl⟩ := renameHost_cases hrename
    exact ⟨rfl, rfl⟩
  | keys _ hkeys =>
    obtain ⟨hosts, fresh, -, -, -, -, -, ⟨-, -, rfl⟩ | ⟨-, -, rfl⟩⟩ := keys_cases hkeys hepoch
    · exact ⟨rfl, rfl⟩
    · exact ⟨rfl, rfl⟩

/-- **The epoch grows just where the members change.** -/
theorem JudgeStep.epoch (h : JudgeStep g a hash g') (hepoch : g.epoch < 2 ^ 32) :
    g'.members = g.members ∧ g'.epoch = g.epoch ∨
      g'.members ≠ g.members ∧ g'.epoch = (g.epoch + 1) % 2 ^ 32 := by
  have hdrop : a.subject ∈ g.members → (dropMember g a.subject).members ≠ g.members ∧
      (dropMember g a.subject).epoch = (g.epoch + 1) % 2 ^ 32 := by
    intro hmember
    refine ⟨fun heq => ?_, by rw [dropMember_frame]⟩
    have hlen := congrArg List.length heq
    rw [dropMember_members, List.length_erase_of_mem hmember] at hlen
    have := List.length_pos_of_mem hmember
    omega
  cases h with
  | add _ _ _ _ => exact .inr ⟨by simp, rfl⟩
  | remove _ _ hmember _ => exact .inr (hdrop hmember)
  | leave _ _ hmember _ => exact .inr (hdrop hmember)
  | approval _ happroves happrove =>
    rw [approve_frame happrove, happroves.frame]
    exact .inl ⟨rfl, rfl⟩
  | set _ _ _ _ => exact .inl ⟨rfl, rfl⟩
  | host _ _ _ _ hadd =>
    rw [addHost_frame hadd]
    exact .inl ⟨rfl, rfl⟩
  | hostAgain _ _ _ hrename =>
    obtain ⟨h₀, -, -, rfl⟩ := renameHost_cases hrename
    exact .inl ⟨rfl, rfl⟩
  | keys _ hkeys =>
    obtain ⟨hosts, fresh, -, -, -, -, -, ⟨-, -, rfl⟩ | ⟨-, -, rfl⟩⟩ := keys_cases hkeys hepoch
    · exact .inl ⟨rfl, rfl⟩
    · exact .inl ⟨rfl, rfl⟩

/-! ## Commitments -/

theorem slot_eq_iff (e e' : ℕ) : slot e = slot e' ↔ e % 64 = e' % 64 := Fin.ext_iff

/-- Every slot is empty or of an epoch that is its own, up to the current one. -/
def SlotsOk (g : Group) : Prop :=
  ∀ s, (g.commits s).epoch = 0 ∨ slot (g.commits s).epoch = s ∧ (g.commits s).epoch ≤ g.epoch

theorem groupCommit_some {e : ℕ} {c : Bytes32} (h : groupCommit g e = some c) :
    e ≠ 0 ∧ (g.commits (slot e)).epoch = e ∧ (g.commits (slot e)).commit = c := by
  unfold groupCommit at h
  split_ifs at h with hzero hepoch
  exact ⟨hzero, hepoch, Option.some.inj h⟩

/-- What a step does to the commitments: nothing, or the current epoch gets one. -/
theorem JudgeStep.commits (h : JudgeStep g a hash g') (hepoch : g.epoch < 2 ^ 32) :
    g'.commits = g.commits ∨ 0 < g.epoch ∧ groupCommit g g.epoch = none ∧ g'.epoch = g.epoch ∧
      a.kind = .keys ∧
      g'.commits = Function.update g.commits (slot g.epoch) ⟨g.epoch, a.subject⟩ := by
  cases h with
  | add _ _ _ _ => exact .inl rfl
  | remove _ _ _ _ =>
    rw [dropMember_frame]
    exact .inl rfl
  | leave _ _ _ _ =>
    rw [dropMember_frame]
    exact .inl rfl
  | approval _ happroves happrove =>
    rw [approve_frame happrove, happroves.frame]
    exact .inl rfl
  | set _ _ _ _ => exact .inl rfl
  | host _ _ _ _ hadd =>
    rw [addHost_frame hadd]
    exact .inl rfl
  | hostAgain _ _ _ hrename =>
    obtain ⟨h₀, -, -, rfl⟩ := renameHost_cases hrename
    exact .inl rfl
  | keys hkind hkeys =>
    obtain ⟨hosts, fresh, hpos, -, -, -, -, ⟨-, -, rfl⟩ | ⟨hnone, he, rfl⟩⟩ :=
      keys_cases hkeys hepoch
    · exact .inl rfl
    · exact .inr ⟨he ▸ hpos, he ▸ hnone, rfl, hkind, by rw [he]⟩

theorem JudgeStep.epoch_le (h : JudgeStep g a hash g') (hepoch : g.epoch + 1 < 2 ^ 32) :
    g.epoch ≤ g'.epoch ∧ g'.epoch ≤ g.epoch + 1 := by
  rcases h.epoch (by omega) with ⟨-, heq⟩ | ⟨-, heq⟩ <;> rw [heq] <;> omega

/-- A commitment stays, or its slot is a later epoch's and it is not kept any more. -/
def KeptOr (g : Group) (e : ℕ) (c : Bytes32) : Prop :=
  groupCommit g e = some c ∨ groupCommit g e = none ∧ e + 64 ≤ g.epoch

theorem JudgeStep.slotsOk (h : JudgeStep g a hash g') (hepoch : g.epoch + 1 < 2 ^ 32)
    (hslots : SlotsOk g) : SlotsOk g' := by
  obtain ⟨hle, -⟩ := h.epoch_le hepoch
  intro s
  rcases h.commits (by omega) with heq | ⟨-, -, hsame, -, heq⟩ <;> rw [heq]
  · rcases hslots s with hzero | ⟨hslot, hbound⟩
    · exact .inl hzero
    · exact .inr ⟨hslot, hbound.trans hle⟩
  · by_cases hs : s = slot g.epoch
    · rw [hs, Function.update_self]
      exact .inr ⟨rfl, hle⟩
    · rw [Function.update_of_ne hs, hsame]
      exact hslots s

theorem JudgeStep.keptOr (h : JudgeStep g a hash g') (hepoch : g.epoch + 1 < 2 ^ 32)
    (hslots : SlotsOk g) {e : ℕ} {c : Bytes32} (hkept : KeptOr g e c) : KeptOr g' e c := by
  obtain ⟨hle, -⟩ := h.epoch_le hepoch
  have hcongr : ∀ g₁ : Group, g₁.commits (slot e) = g.commits (slot e) →
      groupCommit g₁ e = groupCommit g e := fun g₁ heq => by
    unfold groupCommit
    rw [heq]
  rcases h.commits (by omega) with heq | ⟨hpos, hnone, hsame, -, heq⟩
  · rcases hkept with hsome | ⟨hgone, hold⟩
    · exact .inl ((hcongr g' (by rw [heq])).trans hsome)
    · exact .inr ⟨(hcongr g' (by rw [heq])).trans hgone, hold.trans hle⟩
  · by_cases hs : slot e = slot g.epoch
    · have hne : e ≠ g.epoch := by
        rintro rfl
        rcases hkept with hsome | ⟨-, hold⟩
        · rw [hnone] at hsome
          cases hsome
        · omega
      have hold : e + 64 ≤ g.epoch := by
        rcases hkept with hsome | ⟨-, hold⟩
        · obtain ⟨hzero, hat, -⟩ := groupCommit_some hsome
          rcases hslots (slot e) with hempty | ⟨-, hbound⟩
          · exact absurd (hat.symm.trans hempty) hzero
          · rw [slot_eq_iff] at hs
            omega
        · exact hold
      refine .inr ⟨?_, hold.trans hle⟩
      unfold groupCommit
      rw [heq, hs, Function.update_self]
      split_ifs with hzero hcurrent
      · rfl
      · exact absurd hcurrent.symm hne
      · rfl
    · have hsame' : g'.commits (slot e) = g.commits (slot e) := by
        rw [heq, Function.update_of_ne hs]
      rcases hkept with hsome | ⟨hgone, hold⟩
      · exact .inl ((hcongr g' hsame').trans hsome)
      · exact .inr ⟨(hcongr g' hsame').trans hgone, hold.trans hle⟩

/-! ## What a log keeps -/

/-- What every group of a log keeps. -/
structure Kept (log : List (GroupAct × Bytes32)) (g : Group) : Prop where
  tables : Tables g
  slots : SlotsOk g
  seq : g.seq = log.length
  epoch_pos : 0 < g.epoch
  epoch_le : g.epoch ≤ log.length

theorem Accepted.kept (h : Accepted log g) (hlen : log.length < 2 ^ 32) : Kept log g := by
  induction h with
  | create ha happ =>
    obtain ⟨-, -, -, rfl⟩ := apply_of_create ha happ
    exact ⟨tables_created _ _, fun _ => .inl rfl, rfl, Nat.one_pos, le_rfl⟩
  | @next log g g' a hash _ ha happ ih =>
    rw [List.length_append, List.length_singleton] at hlen
    obtain ⟨htables, hslots, hseq, hpos, hle⟩ := ih (by omega)
    obtain ⟨hcreate, -⟩ | ⟨-, -, -, -, -, next, hstep, rfl⟩ := groupApply_cases happ
    · exact absurd hcreate ha
    have hepoch := hstep.epoch_le (by omega)
    have hnext := hstep.tables htables (by omega)
    refine ⟨{ hnext with }, hstep.slotsOk (by omega) hslots, ?_, ?_, ?_⟩
    · show (next.seq + 1) % 2 ^ 32 = _
      rw [(hstep.place (by omega)).2, hseq, List.length_append, List.length_singleton,
        Nat.mod_eq_of_lt hlen]
    · exact hpos.trans_le hepoch.1
    · rw [List.length_append, List.length_singleton]
      exact hepoch.2.trans (by omega)

/-- A log has 2^32 places, and none behind the last. -/
theorem Accepted.places (h : Accepted log g) :
    log.length ≤ 2 ^ 32 ∧ g.seq = log.length % 2 ^ 32 := by
  induction h with
  | create ha happ =>
    obtain ⟨-, -, -, rfl⟩ := apply_of_create ha happ
    exact ⟨show 1 ≤ 2 ^ 32 by decide, rfl⟩
  | @next log g g' a hash hlog ha happ ih =>
    obtain ⟨hle, hseq⟩ := ih
    obtain ⟨hcreate, -⟩ | ⟨-, hopen, -, -, -, next, hstep, rfl⟩ := groupApply_cases happ
    · exact absurd hcreate ha
    have hlt : log.length < 2 ^ 32 := lt_of_le_of_ne hle fun heq =>
      hopen (by rw [hseq, heq, Nat.mod_self])
    have hkept := hlog.kept hlt
    have hepoch := hkept.epoch_le
    rw [List.length_append, List.length_singleton]
    refine ⟨hlt, ?_⟩
    show (next.seq + 1) % 2 ^ 32 = _
    rw [(hstep.place (by omega)).2, hkept.seq]

/-- **A commitment once set never changes**, in whatever a log grows to. -/
theorem Accepted.keptOr {more : List (GroupAct × Bytes32)} (h : Accepted log g)
    (h' : Accepted (log ++ more) g') (hlen : (log ++ more).length < 2 ^ 32) {e : ℕ} {c : Bytes32}
    (hset : groupCommit g e = some c) : KeptOr g' e c := by
  induction more using List.reverseRecOn generalizing g' with
  | nil =>
    rw [List.append_nil] at h'
    rw [← h.unique h']
    exact .inl hset
  | append_singleton more x ih =>
    rw [← List.append_assoc] at h' hlen
    rw [List.length_append, List.length_singleton] at hlen
    obtain ⟨g₁, h₁, ha, happ⟩ := h'.last (by simp [h.ne_nil])
    obtain ⟨-, hslots, -, -, hle⟩ := h₁.kept (by omega)
    obtain ⟨hcreate, -⟩ | ⟨-, -, -, -, -, next, hstep, rfl⟩ := groupApply_cases happ
    · exact absurd hcreate ha
    · exact hstep.keptOr (by omega) hslots (ih h₁ (by omega))

end Groups
end Fuzznet
