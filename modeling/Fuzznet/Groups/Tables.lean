/-
# The tables of a group

What every group an act log says keeps: no repeats, admins that are members, hosts of
members, an admin left, and every table within its bound (`Tables`).  The proposals are part
of it: the approvals of one are of admins, each once, so that an approval is never written
past the room for one an admin.
-/

import Fuzznet.Groups.Steps

namespace Fuzznet
namespace Groups

open Wire

theorem nodup_append_one {keys : List Key} {key : Key} (h : keys.Nodup) (hnew : key ∉ keys) :
    (keys ++ [key]).Nodup :=
  h.append (List.nodup_singleton key) (List.disjoint_singleton.2 hnew)

/-! ## Hosts -/

section Hosts

variable {key : Key} {f : GroupHost → GroupHost} {hosts hosts' : List GroupHost}

/-- Whose a host is, and which. -/
def GroupHost.name (h : GroupHost) : Key × Key := (h.owner, h.key)

theorem map_updateHost {β : Type} {n : GroupHost → β} (hf : ∀ h, n (f h) = n h) :
    (updateHost key f hosts).map n = hosts.map n := by
  induction hosts with
  | nil => rfl
  | cons h hosts ih =>
    unfold updateHost
    split
    · rw [List.map_cons, List.map_cons, hf]
    · rw [List.map_cons, List.map_cons, ih]

variable {g : Group} {p : Proposal} {k : ℕ}

/-- What one box does to the hosts: nothing, or the epoch noted at its host. -/
theorem keyHost_cases {e n n' : ℕ} (h : keyHost g e (hosts, n) key = .ok (hosts', n')) :
    ∃ h₀, hosts.find? (·.key = key) = some h₀ ∧
      (e < g.epoch → g.backfill = 0 → h₀.joinedEpoch ≤ e) ∧
      (e = g.epoch ∧ h₀.keyedEpoch ≠ e ∧ n' = n + 1 ∧
        hosts' = updateHost key (fun h => { h with keyedEpoch := e }) hosts ∨
      e < g.epoch ∧ e + 1 = h₀.backfilledTo ∧ n' = n + 1 ∧
        hosts' = updateHost key (fun h => { h with backfilledTo := e }) hosts ∨
      g.epoch ≤ e ∧ (e = g.epoch → h₀.keyedEpoch = e) ∧ n' = n ∧ hosts' = hosts) := by
  unfold keyHost at h
  dsimp only at h
  split at h
  · cases h
  next h₀ hfound =>
  refine ⟨h₀, hfound, ?_⟩
  split_ifs at h with hjoin hfresh hold hheld hskip
  · obtain ⟨rfl, rfl⟩ := Prod.mk.inj (Except.ok.inj h)
    exact ⟨fun hlt => absurd hfresh.1 hlt.ne, .inl ⟨hfresh.1, hfresh.2, rfl, rfl⟩⟩
  · obtain ⟨rfl, rfl⟩ := Prod.mk.inj (Except.ok.inj h)
    rw [not_not] at hskip
    refine ⟨fun hlt hbackfill => not_lt.1 fun hjoined => hjoin ⟨hlt, hbackfill, hjoined⟩,
      .inr (.inl ⟨hold, hskip, rfl, rfl⟩)⟩
  · obtain ⟨rfl, rfl⟩ := Prod.mk.inj (Except.ok.inj h)
    refine ⟨fun hlt => absurd hlt hold, .inr (.inr ⟨not_lt.1 hold, fun he => ?_, rfl, rfl⟩)⟩
    by_contra hne
    exact hfresh ⟨he, hne⟩

theorem keyHost_map {e n n' : ℕ} {β : Type} {r : GroupHost → β}
    (hkeyed : ∀ h : GroupHost, r { h with keyedEpoch := e } = r h)
    (hback : ∀ h : GroupHost, r { h with backfilledTo := e } = r h)
    (h : keyHost g e (hosts, n) key = .ok (hosts', n')) : hosts'.map r = hosts.map r := by
  obtain ⟨h₀, -, -, ⟨-, -, -, rfl⟩ | ⟨-, -, -, rfl⟩ | ⟨-, -, -, rfl⟩⟩ := keyHost_cases h
  · exact map_updateHost hkeyed
  · exact map_updateHost hback
  · rfl

/-- A `KEYS` act's boxes, one behind the other. -/
theorem keyHosts_induction {e : ℕ} {P : List GroupHost → ℕ → Prop} {ks : List Key} {n n' : ℕ}
    (hstep : ∀ key ∈ ks, ∀ hosts n hosts' n', P hosts n →
      keyHost g e (hosts, n) key = .ok (hosts', n') → P hosts' n')
    (h : ks.foldlM (keyHost g e) (hosts, n) = .ok (hosts', n')) (hP : P hosts n) : P hosts' n' := by
  induction ks generalizing hosts n with
  | nil =>
    obtain ⟨rfl, rfl⟩ := Prod.mk.inj (Except.ok.inj h)
    exact hP
  | cons key ks ih =>
    rw [List.foldlM_cons] at h
    cases hkey : keyHost g e (hosts, n) key with
    | error err =>
      rw [hkey] at h
      cases h
    | ok at₁ =>
      rw [hkey] at h
      exact ih (fun k hk => hstep k (List.mem_cons_of_mem key hk)) h
        (hstep key (List.mem_cons_self ..) hosts n _ _ hP hkey)

theorem keyHosts_map {e n n' : ℕ} {ks : List Key} {β : Type} {r : GroupHost → β}
    (hkeyed : ∀ h : GroupHost, r { h with keyedEpoch := e } = r h)
    (hback : ∀ h : GroupHost, r { h with backfilledTo := e } = r h)
    (h : ks.foldlM (keyHost g e) (hosts, n) = .ok (hosts', n')) : hosts'.map r = hosts.map r :=
  keyHosts_induction (P := fun hs _ => hs.map r = hosts.map r)
    (fun _ _ _ _ _ _ hP hkey => (keyHost_map hkeyed hback hkey).trans hP) h rfl

end Hosts

variable {g g' : Group} {a : GroupAct} {hash : Bytes32}

/-- **What a `KEYS` act taken does**: boxes noted at their hosts, and the current epoch
committed to where it was not. -/
theorem keys_cases (h : keys g a = .ok g') (hepoch : g.epoch < 2 ^ 32) : ∃ hosts fresh,
    0 < a.value ∧ a.value ≤ g.epoch ∧ a.signer.owner ∈ g.members ∧
    (∃ h, groupHost g (deviceKey a.signer) = some h) ∧
    (boxKeys a).foldlM (keyHost g a.value) (g.hosts, 0) = .ok (hosts, fresh) ∧
    (groupCommit g a.value = some a.subject ∧ 0 < fresh ∧ g' = { g with hosts := hosts } ∨
      groupCommit g a.value = none ∧ a.value = g.epoch ∧ g' = { g with
        hosts := hosts
        commits := Function.update g.commits (slot a.value) ⟨a.value, a.subject⟩ }) := by
  unfold keys at h
  dsimp only at h
  split at h
  · cases h
  next hsigner =>
  split at h
  · cases h
  next hvalue =>
  rw [not_or, not_or, not_lt] at hvalue
  rw [Nat.mod_eq_of_lt (lt_of_le_of_lt hvalue.2.1 hepoch)] at h
  split at h
  · cases h
  next hcommit =>
  split at h
  · cases h
  next hosts fresh hfold =>
  rw [not_or, not_not] at hsigner
  refine ⟨hosts, fresh, Nat.pos_of_ne_zero hvalue.1, hvalue.2.1, hsigner.1,
    Option.ne_none_iff_exists'.1 hsigner.2, hfold, ?_⟩
  unfold commitFits at hcommit
  split at h
  next c hc =>
    rw [hc] at hcommit
    split at h
    · cases h
    next hfresh =>
    obtain rfl : c = a.subject := by simpa using hcommit
    exact .inl ⟨hc, Nat.pos_of_ne_zero hfresh, (Except.ok.inj h).symm⟩
  next hnone =>
    rw [hnone] at hcommit
    exact .inr ⟨hnone, by simpa using hcommit, (Except.ok.inj h).symm⟩

/-! ## Approvals -/

/-- What a proposal carried does to the admins. -/
def changedAdmins (kind : UInt8) (subject : Key) (admins : List Key) : List Key :=
  if kind = ActKind.adminAdd.byte then admins ++ [subject] else admins.erase subject

theorem enact_cases (g : Group) (p : Proposal) :
    enact g p = { g with proposals := [] } ∨
    enact g p = { g with admins := changedAdmins p.kind p.subject g.admins, proposals := [] } ∧
      (p.kind = ActKind.adminAdd.byte ∧ p.subject ∉ g.admins ∧ p.subject ∈ g.members ∧
          g.admins.length < adminsMax ∨
        p.kind ≠ ActKind.adminAdd.byte ∧ p.subject ∈ g.admins ∧ 1 < g.admins.length) := by
  unfold enact changedAdmins
  split_ifs with hkind hfits hfits
  · exact .inr ⟨rfl, .inl ⟨hkind, hfits⟩⟩
  · exact .inl rfl
  · exact .inr ⟨rfl, .inr ⟨hkind, hfits⟩⟩
  · exact .inl rfl

/-- A proposal with an approval more. -/
def Proposal.with (p : Proposal) (who : Key) : Proposal :=
  { p with approvals := p.approvals ++ [who] }

/-- **What an approval does**: it is one more, or carries its proposal. -/
theorem approve_cases {who : Key} (h : approve g k p who = .ok g') :
    who ∉ p.approvals ∧
    (g' = { g with proposals := g.proposals.set k (p.with who) } ∨
      g.admins.length / 2 + 1 ≤ p.approvals.length + 1 ∧
        g' = enact { g with proposals := g.proposals.set k (p.with who) } (p.with who)) := by
  unfold approve at h
  dsimp only at h
  split_ifs at h with hagain hmajority
  · refine ⟨hagain, .inr ⟨?_, (Except.ok.inj h).symm⟩⟩
    rw [List.length_append, List.length_singleton] at hmajority
    exact hmajority
  · exact ⟨hagain, .inl (Except.ok.inj h).symm⟩

/-! ## What is kept -/

/-- What the tables of a group keep. -/
structure Tables (g : Group) : Prop where
  members_nodup : g.members.Nodup
  admins_nodup : g.admins.Nodup
  hosts_nodup : (g.hosts.map GroupHost.key).Nodup
  admin_member : ∀ k ∈ g.admins, k ∈ g.members
  host_member : ∀ h ∈ g.hosts, h.owner ∈ g.members
  some_admin : g.admins ≠ []
  approvals_nodup : ∀ p ∈ g.proposals, p.approvals.Nodup
  approvals_admin : ∀ p ∈ g.proposals, ∀ k ∈ p.approvals, k ∈ g.admins
  members_le : g.members.length ≤ membersMax
  admins_le : g.admins.length ≤ adminsMax
  proposals_le : g.proposals.length ≤ proposalsMax
  hosts_le : g.hosts.length ≤ hostsMax

/-- There is room for every approval: one an admin. -/
theorem Tables.approvals_le (h : Tables g) (hp : p ∈ g.proposals) :
    p.approvals.length ≤ adminsMax :=
  ((h.approvals_nodup p hp).length_le_of_subset (h.approvals_admin p hp)).trans h.admins_le

theorem tables_created (a : GroupAct) (hash : Bytes32) : Tables (created a hash) where
  members_nodup := List.nodup_singleton _
  admins_nodup := List.nodup_singleton _
  hosts_nodup := List.nodup_singleton _
  admin_member := fun _ h => h
  host_member := fun h hh => by
    obtain rfl := List.mem_singleton.1 hh
    exact List.mem_singleton_self _
  some_admin := List.cons_ne_nil _ _
  approvals_nodup := fun _ hp => absurd hp List.not_mem_nil
  approvals_admin := fun _ hp => absurd hp List.not_mem_nil
  members_le := show 1 ≤ membersMax by decide
  admins_le := show 1 ≤ adminsMax by decide
  proposals_le := Nat.zero_le _
  hosts_le := show 1 ≤ hostsMax by decide

/-- A proposal put in the place of another. -/
theorem mem_set_proposal {ps : List Proposal} {p q : Proposal} (h : q ∈ ps.set k p) :
    q = p ∨ q ∈ ps :=
  (List.mem_or_eq_of_mem_set h).symm

theorem Tables.proposals (h : Tables g) {ps : List Proposal} (hlen : ps.length ≤ proposalsMax)
    (hnodup : ∀ p ∈ ps, p.approvals.Nodup) (hadmin : ∀ p ∈ ps, ∀ k ∈ p.approvals, k ∈ g.admins) :
    Tables { g with proposals := ps } :=
  { h with
    approvals_nodup := hnodup
    approvals_admin := hadmin
    proposals_le := hlen }

theorem Tables.enact (h : Tables g) (p : Proposal) : Tables (enact g p) := by
  have hnil : Tables { g with proposals := [] } :=
    h.proposals (Nat.zero_le _) (fun _ hp => absurd hp List.not_mem_nil)
      fun _ hp => absurd hp List.not_mem_nil
  rcases enact_cases g p with heq | ⟨heq, ⟨hkind, hnew, hmember, hroom⟩ | ⟨hkind, hold, hmany⟩⟩
  · rw [heq]
    exact hnil
  · rw [heq, changedAdmins, if_pos hkind]
    refine { hnil with
      admins_nodup := ?_
      admin_member := ?_
      some_admin := List.append_ne_nil_of_right_ne_nil _ (List.cons_ne_nil _ _)
      approvals_admin := fun _ hp => absurd hp List.not_mem_nil
      admins_le := ?_ }
    · exact nodup_append_one h.admins_nodup hnew
    · intro k hk
      rcases List.mem_append.1 hk with hk | hk
      · exact h.admin_member k hk
      · exact List.mem_singleton.1 hk ▸ hmember
    · rw [List.length_append, List.length_singleton]
      exact hroom
  · rw [heq, changedAdmins, if_neg hkind]
    have hlen := List.length_erase_of_mem hold
    refine { hnil with
      admins_nodup := h.admins_nodup.erase _
      admin_member := fun k hk => h.admin_member k (List.mem_of_mem_erase hk)
      some_admin := ?_
      approvals_admin := fun _ hp => absurd hp List.not_mem_nil
      admins_le := (List.erase_sublist.length_le).trans h.admins_le }
    show g.admins.erase p.subject ≠ []
    rw [← List.length_pos_iff]
    omega

theorem Tables.approve (h : Tables g) {who : Key} (hp : p ∈ g.proposals) (hwho : who ∈ g.admins)
    (happ : approve g k p who = .ok g') : Tables g' := by
  obtain ⟨hnew, hcases⟩ := approve_cases happ
  have hset : Tables { g with proposals := g.proposals.set k (p.with who) } := by
    refine h.proposals (by rw [List.length_set]; exact h.proposals_le) (fun q hq => ?_)
      fun q hq w hw => ?_
    · rcases mem_set_proposal hq with rfl | hq
      · exact nodup_append_one (h.approvals_nodup p hp) hnew
      · exact h.approvals_nodup q hq
    · rcases mem_set_proposal hq with rfl | hq
      · rcases List.mem_append.1 hw with hw | hw
        · exact h.approvals_admin p hp w hw
        · exact List.mem_singleton.1 hw ▸ hwho
      · exact h.approvals_admin q hq w hw
  rcases hcases with rfl | ⟨-, rfl⟩
  · exact hset
  · exact hset.enact _

/-- The group an approval is judged in, and its proposal there. -/
theorem Approves.tables {g₁ : Group} (ha : Approves g a hash g₁ k p) (h : Tables g) :
    Tables g₁ ∧ p ∈ g₁.proposals ∧ g₁.admins = g.admins := by
  cases ha with
  | named _ hk _ => exact ⟨h, List.mem_of_getElem? hk, rfl⟩
  | again _ hk _ _ => exact ⟨h, List.mem_of_getElem? hk, rfl⟩
  | own _ hroom =>
    have hlt := lt_of_le_of_ne h.proposals_le hroom
    refine ⟨h.proposals (by rw [List.length_append, List.length_singleton]; exact hlt)
      (fun q hq => ?_) fun q hq w hw => ?_,
      List.mem_append_right _ (List.mem_singleton_self _), rfl⟩
    · rcases List.mem_append.1 hq with hq | hq
      · exact h.approvals_nodup q hq
      · obtain rfl := List.mem_singleton.1 hq
        exact List.nodup_nil
    · rcases List.mem_append.1 hq with hq | hq
      · exact h.approvals_admin q hq w hw
      · obtain rfl := List.mem_singleton.1 hq
        exact absurd hw List.not_mem_nil

theorem Tables.hosts (h : Tables g) {hosts : List GroupHost}
    (hsame : hosts.map GroupHost.name = g.hosts.map GroupHost.name) :
    Tables { g with hosts := hosts } := by
  have hkeys : hosts.map GroupHost.key = g.hosts.map GroupHost.key := by
    have hsnd := congrArg (List.map Prod.snd) hsame
    rwa [List.map_map, List.map_map] at hsnd
  refine { h with
    hosts_nodup := hkeys ▸ h.hosts_nodup
    host_member := fun x hx => ?_
    hosts_le := ?_ }
  · have hname : x.name ∈ g.hosts.map GroupHost.name := hsame ▸ List.mem_map_of_mem hx
    obtain ⟨y, hy, heq⟩ := List.mem_map.1 hname
    exact (Prod.mk.inj heq).1 ▸ h.host_member y hy
  · have hlen := congrArg List.length hsame
    rw [List.length_map, List.length_map] at hlen
    exact hlen ▸ h.hosts_le

theorem Tables.dropMember (h : Tables g) {subject : Key}
    (hlast : ¬(subject ∈ g.admins ∧ g.admins.length = 1)) : Tables (dropMember g subject) := by
  have hsubset : ∀ x ∈ (g.hosts.filter (·.owner ≠ subject)), x ∈ g.hosts ∧ x.owner ≠ subject :=
    fun x hx => ⟨(List.mem_filter.1 hx).1, of_decide_eq_true (List.mem_filter.1 hx).2⟩
  have hmember : ∀ k ∈ g.members, k ≠ subject → k ∈ g.members.erase subject :=
    fun k hk hne => (List.mem_erase_of_ne hne).2 hk
  unfold Groups.dropMember dropHostsOf
  dsimp only
  by_cases hadmin : subject ∈ g.admins
  · rw [if_pos hadmin]
    have hlen := List.length_erase_of_mem hadmin
    have hpos : 0 < g.admins.length := List.length_pos_of_mem hadmin
    exact {
      members_nodup := h.members_nodup.erase _
      admins_nodup := h.admins_nodup.erase _
      hosts_nodup := h.hosts_nodup.sublist (List.filter_sublist.map _)
      admin_member := fun k hk => hmember k (h.admin_member k (List.mem_of_mem_erase hk))
        ((h.admins_nodup.mem_erase_iff).1 hk).1
      host_member := fun x hx => hmember _ (h.host_member x (hsubset x hx).1) (hsubset x hx).2
      some_admin := by
        show g.admins.erase subject ≠ []
        rw [← List.length_pos_iff]
        have hne : g.admins.length ≠ 1 := fun hone => hlast ⟨hadmin, hone⟩
        omega
      approvals_nodup := fun _ hp => absurd hp List.not_mem_nil
      approvals_admin := fun _ hp => absurd hp List.not_mem_nil
      members_le := (List.erase_sublist.length_le).trans h.members_le
      admins_le := (List.erase_sublist.length_le).trans h.admins_le
      proposals_le := Nat.zero_le _
      hosts_le := (List.length_filter_le _ _).trans h.hosts_le }
  · rw [if_neg hadmin]
    exact { h with
      members_nodup := h.members_nodup.erase _
      hosts_nodup := h.hosts_nodup.sublist (List.filter_sublist.map _)
      admin_member := fun k hk => hmember k (h.admin_member k hk) fun heq => hadmin (heq ▸ hk)
      host_member := fun x hx => hmember _ (h.host_member x (hsubset x hx).1) (hsubset x hx).2
      members_le := (List.erase_sublist.length_le).trans h.members_le
      hosts_le := (List.length_filter_le _ _).trans h.hosts_le }

theorem Tables.addHost (h : Tables g) {owner key : Key} {seq : ℕ} (howner : owner ∈ g.members)
    (hnew : groupHost g key = none) (hadd : addHost g owner key seq = .ok g') : Tables g' := by
  unfold Groups.addHost at hadd
  split_ifs at hadd with hlisted hroom
  obtain rfl := Except.ok.inj hadd
  refine { h with
    hosts_nodup := ?_
    host_member := fun x hx => ?_
    hosts_le := ?_ }
  · rw [List.map_append]
    refine nodup_append_one h.hosts_nodup fun hk => ?_
    obtain ⟨x, hx, hkey⟩ := List.mem_map.1 hk
    exact List.find?_eq_none.1 hnew x hx (decide_eq_true hkey)
  · rcases List.mem_append.1 hx with hx | hx
    · exact h.host_member x hx
    · obtain rfl := List.mem_singleton.1 hx
      exact howner
  · rw [List.length_append, List.length_singleton]
    exact lt_of_le_of_ne h.hosts_le hroom

theorem renameHost_cases {owner key : Key} {seq : ℕ} {holds : Bool}
    (h : renameHost g owner key seq holds = .ok g') :
    ∃ h₀, groupHost g key = some h₀ ∧ h₀.owner = owner ∧ g' = { g with
      hosts := updateHost key (fun h =>
        if holds then { h with seq := seq }
        else { h with seq := seq, keyedEpoch := 0, backfilledTo := g.epoch }) g.hosts } := by
  unfold renameHost at h
  split at h
  · cases h
  next h₀ hfound =>
  split at h
  · cases h
  next howner => exact ⟨h₀, hfound, not_not.1 howner, (Except.ok.inj h).symm⟩

/-- **Every step keeps the tables.** -/
theorem JudgeStep.tables (hstep : JudgeStep g a hash g') (h : Tables g)
    (hepoch : g.epoch < 2 ^ 32) : Tables g' := by
  cases hstep with
  | add _ _ hnew hroom =>
    exact { h with
      members_nodup := nodup_append_one h.members_nodup hnew
      admin_member := fun k hk => List.mem_append_left _ (h.admin_member k hk)
      host_member := fun x hx => List.mem_append_left _ (h.host_member x hx)
      members_le := by
        show (g.members ++ [a.subject]).length ≤ membersMax
        rw [List.length_append, List.length_singleton]
        exact lt_of_le_of_ne h.members_le hroom }
  | remove _ _ _ hfree => exact h.dropMember fun hlast => hfree hlast.1
  | leave _ _ _ hlast => exact h.dropMember hlast
  | approval hadmin happroves happrove =>
    obtain ⟨h₁, hp, hsame⟩ := happroves.tables h
    exact h₁.approve hp (hsame ▸ hadmin) happrove
  | set _ _ _ _ => exact { h with }
  | host _ howner _ hnew hadd => exact h.addHost howner hnew hadd
  | hostAgain _ _ _ hrename =>
    obtain ⟨h₀, -, -, rfl⟩ := renameHost_cases hrename
    refine h.hosts (map_updateHost fun x => ?_)
    split <;> rfl
  | keys _ hkeys =>
    obtain ⟨hosts, fresh, -, -, -, -, hfold, ⟨-, -, rfl⟩ | ⟨-, -, rfl⟩⟩ := keys_cases hkeys hepoch
    · exact h.hosts (keyHosts_map (fun _ => rfl) (fun _ => rfl) hfold)
    · exact { h.hosts (keyHosts_map (fun _ => rfl) (fun _ => rfl) hfold) with }

end Groups
end Fuzznet
