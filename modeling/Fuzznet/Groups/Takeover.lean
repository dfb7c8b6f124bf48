/-
# No sequence of acts takes a group over

Whatever the acts of a log are, the admins change only by an admin that leaves, or by more
than half of them: each has signed a proposal of that very change, or an approval of one,
since the admins last changed (`StepLaw`).  What carries it is what the open proposals stand
for (`Carried`): every approval is of an admin that has signed so.
-/

import Fuzznet.Groups.Logs

namespace Fuzznet
namespace Groups

open Wire

variable {g g' : Group} {a : GroupAct} {hash : Bytes32}
variable {log since since' : List (GroupAct × Bytes32)}

/-- A proposal of one change of the admins. -/
def ProposalOf (a : GroupAct) (kind : UInt8) (subject : Key) : Prop :=
  Proposes a ∧ a.kind.byte = kind ∧ a.subject = subject

/-- `who` has signed a proposal of a change, or an approval of one, among the acts `since`. -/
def Signed (since : List (GroupAct × Bytes32)) (kind : UInt8) (subject who : Key) : Prop :=
  ∃ a hash, (a, hash) ∈ since ∧ a.signer.owner = who ∧ (ProposalOf a kind subject ∨
    a.kind = .approve ∧ ∃ p, (p, a.subject) ∈ since ∧ ProposalOf p kind subject)

/-- The acts `since` are the last of a log, and from the first of them on its admins are the
same. -/
def SameAdmins (log : List (GroupAct × Bytes32)) (g : Group)
    (since : List (GroupAct × Bytes32)) : Prop :=
  ∃ old, log = old ++ since ∧ ∀ s, s <+: since → ∀ g₀, Accepted (old ++ s) g₀ →
    g₀.admins = g.admins

/-- What the open proposals of a log stand for. -/
def Carried (log : List (GroupAct × Bytes32)) (g : Group) : Prop :=
  ∃ since, SameAdmins log g since ∧ ∀ p ∈ g.proposals,
    (∃ q, (q, p.hash) ∈ since ∧ ProposalOf q p.kind p.subject) ∧
    ∀ who ∈ p.approvals, Signed since p.kind p.subject who

/-- An act removes a member: an admin's, of a member that is none, or its own; as an admin it
is gone first. -/
def RemovedBy (g : Group) (a : GroupAct) (g' : Group) (member : Key) : Prop :=
  ∃ g₁ : Group, member ∉ g₁.admins ∧ member ∈ g₁.members ∧
    g'.members = g₁.members.erase member ∧ g'.admins = g₁.admins ∧ a.subject = member ∧
    (a.kind = .remove ∧ a.signer.owner ∈ g.admins ∧ g₁ = g ∨
      a.kind = .leave ∧ a.signer.owner = member ∧
        (g₁ = g ∨ member ∈ g.admins ∧
          g₁ = { g with admins := g.admins.erase member, proposals := [] }))

/-- What an act taken behind a log may change. -/
structure StepLaw (log : List (GroupAct × Bytes32)) (g : Group) (a : GroupAct) (hash : Bytes32)
    (g' : Group) : Prop where
  admins : g'.admins ≠ g.admins →
    a.kind = .leave ∧ a.signer.owner = a.subject ∧ a.subject ∈ g.admins ∧
      g'.admins = g.admins.erase a.subject ∨
    ∃ kind subject since, g'.admins = changedAdmins kind subject g.admins ∧
      SameAdmins log g since ∧ ∃ signers : List Key, signers.Nodup ∧
        (∀ who ∈ signers, who ∈ g.admins ∧ Signed (since ++ [(a, hash)]) kind subject who) ∧
        g.admins.length < 2 * signers.length
  removed : ∀ member ∈ g.members, member ∉ g'.members → RemovedBy g a g' member
  epoch : g'.members = g.members ∧ g'.epoch = g.epoch ∨
    g'.members ≠ g.members ∧ g'.epoch = g.epoch + 1

theorem Signed.mono (hsub : since ⊆ since') {kind : UInt8} {subject who : Key}
    (h : Signed since kind subject who) : Signed since' kind subject who := by
  obtain ⟨a, hash, hmem, hwho, hof | ⟨hkind, p, hp, hof⟩⟩ := h
  · exact ⟨a, hash, hsub hmem, hwho, .inl hof⟩
  · exact ⟨a, hash, hsub hmem, hwho, .inr ⟨hkind, p, hsub hp, hof⟩⟩

theorem SameAdmins.snoc (h : SameAdmins log g since) (hadmins : g'.admins = g.admins)
    (hlog : Accepted (log ++ [(a, hash)]) g') :
    SameAdmins (log ++ [(a, hash)]) g' (since ++ [(a, hash)]) := by
  obtain ⟨old, rfl, hsame⟩ := h
  refine ⟨old, by rw [List.append_assoc], fun s hs g₀ h₀ => ?_⟩
  rcases List.prefix_concat_iff.1 hs with rfl | hs
  · rw [← List.append_assoc] at h₀
    rw [h₀.unique hlog]
  · rw [hsame s hs g₀ h₀, hadmins]

theorem sameAdmins_nil (h : Accepted log g) : SameAdmins log g [] := by
  refine ⟨log, (List.append_nil log).symm, fun s hs g₀ h₀ => ?_⟩
  rw [List.prefix_nil.1 hs, List.append_nil] at h₀
  rw [h₀.unique h]

/-- What an approval, once made, stands for. -/
theorem Approves.signed {g₁ : Group} {k : ℕ} {p : Proposal} (ha : Approves g a hash g₁ k p)
    (hcarried : ∀ p ∈ g.proposals, (∃ q, (q, p.hash) ∈ since ∧ ProposalOf q p.kind p.subject) ∧
      ∀ who ∈ p.approvals, Signed since p.kind p.subject who) :
    (∀ q ∈ g₁.proposals.set k (p.with a.signer.owner),
      (∃ q', (q', q.hash) ∈ since ++ [(a, hash)] ∧ ProposalOf q' q.kind q.subject) ∧
      ∀ who ∈ q.approvals, Signed (since ++ [(a, hash)]) q.kind q.subject who) ∧
    ∀ who ∈ p.approvals ++ [a.signer.owner],
      Signed (since ++ [(a, hash)]) p.kind p.subject who := by
  have hsub : since ⊆ since ++ [(a, hash)] := List.subset_append_left _ _
  have hself : (a, hash) ∈ since ++ [(a, hash)] :=
    List.mem_append_right _ (List.mem_singleton_self _)
  have hold : ∀ q ∈ g.proposals,
      (∃ q', (q', q.hash) ∈ since ++ [(a, hash)] ∧ ProposalOf q' q.kind q.subject) ∧
      ∀ who ∈ q.approvals, Signed (since ++ [(a, hash)]) q.kind q.subject who := by
    intro q hq
    obtain ⟨⟨q', hq', hof⟩, hsigned⟩ := hcarried q hq
    exact ⟨⟨q', hsub hq', hof⟩, fun who hwho => (hsigned who hwho).mono hsub⟩
  -- the proposal itself, with the approval more
  have hp : (∃ q', (q', p.hash) ∈ since ++ [(a, hash)] ∧ ProposalOf q' p.kind p.subject) ∧
      ∀ who ∈ p.approvals ++ [a.signer.owner],
        Signed (since ++ [(a, hash)]) p.kind p.subject who := by
    cases ha with
    | named hkind hk hhash =>
      obtain ⟨⟨q, hq, hof⟩, hsigned⟩ := hold p (List.mem_of_getElem? hk)
      refine ⟨⟨q, hq, hof⟩, fun who hwho => ?_⟩
      rcases List.mem_append.1 hwho with hwho | hwho
      · exact hsigned who hwho
      · obtain rfl := List.mem_singleton.1 hwho
        exact ⟨a, hash, hself, rfl, .inr ⟨hkind, q, hhash ▸ hq, hof⟩⟩
    | again hproposes hk hkind hsubject =>
      obtain ⟨hproposed, hsigned⟩ := hold p (List.mem_of_getElem? hk)
      refine ⟨hproposed, fun who hwho => ?_⟩
      rcases List.mem_append.1 hwho with hwho | hwho
      · exact hsigned who hwho
      · obtain rfl := List.mem_singleton.1 hwho
        exact ⟨a, hash, hself, rfl, .inl ⟨hproposes, hkind.symm, hsubject.symm⟩⟩
    | own hproposes _ =>
      refine ⟨⟨a, hself, hproposes, rfl, rfl⟩, fun who hwho => ?_⟩
      obtain rfl := List.mem_singleton.1 hwho
      exact ⟨a, hash, hself, rfl, .inl ⟨hproposes, rfl, rfl⟩⟩
  refine ⟨fun q hq => ?_, hp.2⟩
  rcases mem_set_proposal hq with rfl | hin
  · exact hp
  · cases ha with
    | named _ _ _ => exact hold q hin
    | again _ _ _ _ => exact hold q hin
    | own hproposes _ =>
      rcases List.mem_append.1 hin with hq | hq
      · exact hold q hq
      · obtain rfl := List.mem_singleton.1 hq
        exact ⟨⟨a, hself, hproposes, rfl, rfl⟩, fun who hwho => absurd hwho List.not_mem_nil⟩

/-- A step that leaves the admins and adds no proposal. -/
theorem Carried.same (h : Carried log g) (hadmins : g'.admins = g.admins)
    (hproposals : ∀ p ∈ g'.proposals, p ∈ g.proposals)
    (hlog : Accepted (log ++ [(a, hash)]) g') : Carried (log ++ [(a, hash)]) g' := by
  obtain ⟨since, hsame, hcarried⟩ := h
  refine ⟨_, hsame.snoc hadmins hlog, fun p hp => ?_⟩
  obtain ⟨⟨q, hq, hof⟩, hsigned⟩ := hcarried p (hproposals p hp)
  exact ⟨⟨q, List.mem_append_left _ hq, hof⟩,
    fun who hwho => (hsigned who hwho).mono (List.subset_append_left _ _)⟩

theorem carried_nil (hlog : Accepted log g) (hproposals : g.proposals = []) : Carried log g :=
  ⟨[], sameAdmins_nil hlog, fun _ hp => absurd (hproposals ▸ hp) List.not_mem_nil⟩

theorem mem_dropMember_proposals {subject : Key} {p : Proposal}
    (h : p ∈ (dropMember g subject).proposals) : subject ∉ g.admins ∧ p ∈ g.proposals := by
  rw [dropMember_proposals] at h
  split at h
  · exact absurd h List.not_mem_nil
  next hfree => exact ⟨hfree, h⟩

/-- A member that goes leaves what the open proposals stand for, or ends them. -/
theorem Carried.dropMember (h : Carried log g) {subject : Key}
    (hdrop : g'.admins = (dropMember g subject).admins ∧
      g'.proposals = (Groups.dropMember g subject).proposals)
    (hlog : Accepted (log ++ [(a, hash)]) g') : Carried (log ++ [(a, hash)]) g' := by
  by_cases hadmin : subject ∈ g.admins
  · refine carried_nil hlog ?_
    rw [hdrop.2, dropMember_proposals, if_pos hadmin]
  · refine h.same ?_ (fun p hp => (mem_dropMember_proposals (hdrop.2 ▸ hp)).2) hlog
    rw [hdrop.1, dropMember_admins, List.erase_of_not_mem hadmin]

/-- **What the open proposals stand for is kept**, by any act taken. -/
theorem Carried.step (h : Carried log g) (hepoch : g.epoch + 1 < 2 ^ 32)
    {next : Group} (hstep : JudgeStep g a hash next) (hadmins : g'.admins = next.admins)
    (hproposals : g'.proposals = next.proposals) (hlog : Accepted (log ++ [(a, hash)]) g') :
    Carried (log ++ [(a, hash)]) g' := by
  have hlt : g.epoch < 2 ^ 32 := by omega
  cases hstep with
  | add _ _ _ _ => exact h.same hadmins (fun p hp => hproposals ▸ hp) hlog
  | remove _ _ _ _ => exact h.dropMember ⟨hadmins, hproposals⟩ hlog
  | leave _ _ _ _ => exact h.dropMember ⟨hadmins, hproposals⟩ hlog
  | approval _ happroves happrove =>
    obtain ⟨since, hsame, hcarried⟩ := h
    obtain ⟨hset, -⟩ := happroves.signed hcarried
    have hframe := happroves.frame
    obtain ⟨-, rfl | ⟨-, rfl⟩⟩ := approve_cases happrove
    · refine ⟨_, hsame.snoc ?_ hlog, fun q hq => hset q (by rwa [hproposals] at hq)⟩
      rw [hadmins, hframe]
    · refine carried_nil hlog (hproposals.trans ?_)
      rcases enact_cases _ _ with heq | ⟨heq, -⟩ <;> rw [heq]
  | set _ _ _ _ => exact h.same hadmins (fun p hp => hproposals ▸ hp) hlog
  | host _ _ _ _ hadd =>
    rw [addHost_frame hadd] at hadmins hproposals
    exact h.same hadmins (fun p hp => hproposals ▸ hp) hlog
  | hostAgain _ _ _ hrename =>
    obtain ⟨h₀, -, -, rfl⟩ := renameHost_cases hrename
    exact h.same hadmins (fun p hp => hproposals ▸ hp) hlog
  | keys _ hkeys =>
    obtain ⟨hosts, fresh, -, -, -, -, -, ⟨-, -, rfl⟩ | ⟨-, -, rfl⟩⟩ := keys_cases hkeys hlt
    · exact h.same hadmins (fun p hp => hproposals ▸ hp) hlog
    · exact h.same hadmins (fun p hp => hproposals ▸ hp) hlog

theorem Accepted.carried (h : Accepted log g) (hlen : log.length < 2 ^ 32) : Carried log g := by
  induction h with
  | create ha happ =>
    obtain ⟨-, -, -, rfl⟩ := apply_of_create ha happ
    exact carried_nil (.create ha happ) rfl
  | @next log g g' a hash hlog ha happ ih =>
    have hlog' := hlog.next ha happ
    rw [List.length_append, List.length_singleton] at hlen
    have hkept := hlog.kept (by omega)
    have hle := hkept.epoch_le
    obtain ⟨hcreate, -⟩ | ⟨-, -, -, -, -, next, hstep, rfl⟩ := groupApply_cases happ
    · exact absurd hcreate ha
    · exact (ih (by omega)).step (by omega) hstep rfl rfl hlog'

/-- The admins change by a leave, or by a majority that has signed the change. -/
theorem JudgeStep.admins (hstep : JudgeStep g a hash g') (hkept : Kept log g)
    (hepoch : g.epoch < 2 ^ 32) (hcarried : Carried log g) (hne : g'.admins ≠ g.admins) :
    a.kind = .leave ∧ a.signer.owner = a.subject ∧ a.subject ∈ g.admins ∧
      g'.admins = g.admins.erase a.subject ∨
    ∃ kind subject since, g'.admins = changedAdmins kind subject g.admins ∧
      SameAdmins log g since ∧ ∃ signers : List Key, signers.Nodup ∧
        (∀ who ∈ signers, who ∈ g.admins ∧ Signed (since ++ [(a, hash)]) kind subject who) ∧
        g.admins.length < 2 * signers.length := by
  cases hstep with
  | add _ _ _ _ => exact absurd rfl hne
  | remove _ _ _ hfree =>
    rw [dropMember_admins, List.erase_of_not_mem hfree] at hne
    exact absurd rfl hne
  | leave hkind hown _ _ =>
    rw [dropMember_admins] at hne ⊢
    refine .inl ⟨hkind, hown, ?_, rfl⟩
    by_contra hfree
    exact hne (List.erase_of_not_mem hfree)
  | @approval g₁ k p _ hadmin happroves happrove =>
    obtain ⟨since, hsame, hproposals⟩ := hcarried
    obtain ⟨-, hsigned⟩ := happroves.signed hproposals
    obtain ⟨htables, hp, hadmins⟩ := happroves.tables hkept.tables
    obtain ⟨hnew, rfl | ⟨hmajority, rfl⟩⟩ := approve_cases happrove
    · exact absurd hadmins hne
    rcases enact_cases { g₁ with proposals := g₁.proposals.set k (p.with a.signer.owner) }
      (p.with a.signer.owner) with heq | ⟨heq, -⟩
    · rw [heq] at hne
      exact absurd hadmins hne
    · refine .inr ⟨p.kind, p.subject, since, ?_, hsame, p.approvals ++ [a.signer.owner], ?_,
        fun who hwho => ⟨?_, hsigned who hwho⟩, ?_⟩
      · rw [heq, ← hadmins]
        rfl
      · exact nodup_append_one (htables.approvals_nodup p hp) hnew
      · rcases List.mem_append.1 hwho with hwho | hwho
        · exact hadmins ▸ htables.approvals_admin p hp who hwho
        · exact List.mem_singleton.1 hwho ▸ hadmin
      · rw [hadmins] at hmajority
        rw [List.length_append, List.length_singleton]
        omega
  | set _ _ _ _ => exact absurd rfl hne
  | host _ _ _ _ hadd =>
    rw [addHost_frame hadd] at hne
    exact absurd rfl hne
  | hostAgain _ _ _ hrename =>
    obtain ⟨h₀, -, -, rfl⟩ := renameHost_cases hrename
    exact absurd rfl hne
  | keys _ hkeys =>
    obtain ⟨hosts, fresh, -, -, -, -, -, ⟨-, -, rfl⟩ | ⟨-, -, rfl⟩⟩ := keys_cases hkeys hepoch
    · exact absurd rfl hne
    · exact absurd rfl hne

/-- A member goes by an admin's act, as no admin, or by its own. -/
theorem JudgeStep.removed (hstep : JudgeStep g a hash g') (hnodup : g.admins.Nodup)
    (hepoch : g.epoch < 2 ^ 32) {member : Key} (hin : member ∈ g.members)
    (hout : member ∉ g'.members) : RemovedBy g a g' member := by
  have hdropped : member ∉ (dropMember g a.subject).members → member = a.subject := by
    intro hgone
    by_contra hother
    rw [dropMember_members] at hgone
    exact hgone ((List.mem_erase_of_ne hother).2 hin)
  cases hstep with
  | add _ _ _ _ => exact absurd (List.mem_append_left _ hin) hout
  | remove hkind hadmin _ hfree =>
    obtain rfl := hdropped hout
    refine ⟨g, hfree, hin, dropMember_members g _, ?_, rfl, .inl ⟨hkind, hadmin, rfl⟩⟩
    rw [dropMember_admins, List.erase_of_not_mem hfree]
  | leave hkind hown _ _ =>
    obtain rfl := hdropped hout
    by_cases hadmin : a.subject ∈ g.admins
    · exact ⟨{ g with admins := g.admins.erase a.subject, proposals := [] },
        hnodup.not_mem_erase, hin, dropMember_members g _, dropMember_admins g _, rfl,
        .inr ⟨hkind, hown, .inr ⟨hadmin, rfl⟩⟩⟩
    · refine ⟨g, hadmin, hin, dropMember_members g _, ?_, rfl,
        .inr ⟨hkind, hown, .inl rfl⟩⟩
      rw [dropMember_admins, List.erase_of_not_mem hadmin]
  | approval _ happroves happrove =>
    rw [approve_frame happrove, happroves.frame] at hout
    exact absurd hin hout
  | set _ _ _ _ => exact absurd hin hout
  | host _ _ _ _ hadd =>
    rw [addHost_frame hadd] at hout
    exact absurd hin hout
  | hostAgain _ _ _ hrename =>
    obtain ⟨h₀, -, -, rfl⟩ := renameHost_cases hrename
    exact absurd hin hout
  | keys _ hkeys =>
    obtain ⟨hosts, fresh, -, -, -, -, -, ⟨-, -, rfl⟩ | ⟨-, -, rfl⟩⟩ := keys_cases hkeys hepoch
    · exact absurd hin hout
    · exact absurd hin hout

/-- What holds of the group of a log, and of every act behind it. -/
structure NotTaken (log : List (GroupAct × Bytes32)) (g : Group) : Prop where
  tables : Tables g
  approvals_le : ∀ p ∈ g.proposals, p.approvals.length ≤ adminsMax
  refused : ∀ a hash e, (groupApply g a hash).1 = .error e → (groupApply g a hash).2 = g
  step : ∀ a hash g', Accepted (log ++ [(a, hash)]) g' → log.length + 1 < 2 ^ 32 →
    StepLaw log g a hash g'
  commitment : ∀ e c more g', groupCommit g e = some c → Accepted (log ++ more) g' →
    (log ++ more).length < 2 ^ 32 →
    groupCommit g' e = some c ∨ groupCommit g' e = none ∧ e + 64 ≤ g'.epoch

/-- **No sequence of acts takes a group over.** -/
theorem no_takeover (h : Accepted log g) (hlen : log.length < 2 ^ 32) : NotTaken log g where
  tables := (h.kept hlen).tables
  approvals_le := fun _ hp => (h.kept hlen).tables.approvals_le hp
  refused := fun _ _ _ he => groupApply_refused he
  commitment := fun _ _ _ _ hset hmore hlen' => h.keptOr hmore hlen' hset
  step := by
    intro a hash g' hnext hroom
    have hkept := h.kept hlen
    have hle := hkept.epoch_le
    obtain ⟨g₀, h₀, ha, happ⟩ := hnext.last h.ne_nil
    obtain rfl := h.unique h₀
    obtain ⟨hcreate, -⟩ | ⟨-, -, -, -, -, next, hstep, rfl⟩ := groupApply_cases happ
    · exact absurd hcreate ha
    refine ⟨hstep.admins hkept (by omega) (h.carried hlen),
      fun member hin hout => ?_, ?_⟩
    · obtain ⟨g₁, hfree, hin₁, hmembers, hadmins, hrest⟩ :=
        hstep.removed hkept.tables.admins_nodup (by omega) hin hout
      exact ⟨g₁, hfree, hin₁, hmembers, hadmins, hrest⟩
    · rcases hstep.epoch (by omega) with ⟨hsame, heq⟩ | ⟨hne, heq⟩
      · exact .inl ⟨hsame, heq⟩
      · exact .inr ⟨hne, heq.trans (Nat.mod_eq_of_lt (by omega))⟩

/-- A host of an owner's, without an address, whose prekey record is all zeros but for it. -/
def plainDevice (owner key : Key) : ContactDevice where
  owner := owner
  record := signedVersion :: prekeyTag :: Session.bytes32 key ++ List.replicate 104 0
  address := []
  port := 0
  hopCount := 0
  hops := []
  recordLen := by simp [prekeyLen]
  hopsLen := rfl

/-- An act of `owner`'s own key. -/
def plainAct (kind : ActKind) (seq : ℕ) (group prev subject owner : Key) : GroupAct where
  kind := kind
  seq := seq
  group := group
  prev := prev
  subject := subject
  setting := 0
  value := 0
  madeAt := 0
  payload := []
  signer := plainDevice owner owner
  sig := 0

/-- A group of 1, who adds 2 and has 2 made an admin. -/
def pairLog : List (GroupAct × Bytes32) :=
  [(plainAct .create 0 0 0 0 1, 11), (plainAct .add 1 11 11 2 1, 12),
    (plainAct .adminAdd 2 11 12 2 1, 13)]

theorem pairLog_accepted : Accepted pairLog (logGroup pairLog) :=
  (Accepted.create (g := blank) rfl rfl).append (by decide)

/-- The group of two admins is not taken over. -/
theorem pair_not_taken : NotTaken pairLog (logGroup pairLog) :=
  no_takeover pairLog_accepted (by decide)

end Groups
end Fuzznet
