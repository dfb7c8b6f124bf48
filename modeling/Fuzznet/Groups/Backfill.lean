/-
# Which epochs a host can be given

Of a group that backfills, a `KEYS` act gives a listed host the current epoch, or the one
before the oldest it was given since its entry was added or reset.  So an epoch that went by
without the host, from its mark on, stays closed to it, and one further back is reached only
through the commitments of every epoch between (`Reaches`).  Those are the only epochs it
misses (`given_iff`).
-/

import Fuzznet.Groups.Takeover

namespace Fuzznet
namespace Groups

open Wire

variable {g g' : Group} {a : GroupAct} {hash : Bytes32} {log : List (GroupAct × Bytes32)}
variable {key : Key} {e : ℕ}

/-! ## A host's entry -/

section Entries

variable {hosts hosts' : List GroupHost} {h : GroupHost} {f : GroupHost → GroupHost}

theorem find?_key_cons (h₀ : GroupHost) (hosts : List GroupHost) (key : Key) :
    (h₀ :: hosts).find? (·.key = key) =
      if h₀.key = key then some h₀ else hosts.find? (·.key = key) := by
  rw [List.find?_cons]
  by_cases hkey : h₀.key = key <;> simp [hkey]

theorem find?_updateHost (hf : ∀ h, (f h).key = h.key)
    (hfind : hosts.find? (·.key = key) = some h) :
    (updateHost key f hosts).find? (·.key = key) = some (f h) := by
  induction hosts with
  | nil => cases hfind
  | cons h₀ hosts ih =>
    unfold updateHost
    rw [find?_key_cons] at hfind
    by_cases hkey : h₀.key = key
    · rw [if_pos hkey] at hfind
      rw [if_pos hkey, find?_key_cons, hf h₀, if_pos hkey, Option.some.inj hfind]
    · rw [if_neg hkey] at hfind
      rw [if_neg hkey, find?_key_cons, if_neg hkey, ih hfind]

theorem find?_updateHost_ne {key' : Key} (hf : ∀ h, (f h).key = h.key) (hne : key' ≠ key) :
    (updateHost key' f hosts).find? (·.key = key) = hosts.find? (·.key = key) := by
  induction hosts with
  | nil => rfl
  | cons h₀ hosts ih =>
    unfold updateHost
    by_cases hkey : h₀.key = key'
    · have hother : h₀.key ≠ key := hkey ▸ hne
      rw [if_pos hkey, find?_key_cons, find?_key_cons, hf h₀, if_neg hother, if_neg hother]
    · rw [if_neg hkey, find?_key_cons, find?_key_cons, ih]

theorem key_of_find? (hfind : hosts.find? (·.key = key) = some h) : h.key = key := by
  simpa using List.find?_some hfind

/-- A host listed is the first of its key. -/
theorem find?_of_nodup (hnodup : (hosts.map GroupHost.key).Nodup) (hmem : h ∈ hosts) :
    hosts.find? (·.key = h.key) = some h := by
  induction hosts with
  | nil => exact absurd hmem List.not_mem_nil
  | cons h₀ hosts ih =>
    rw [List.map_cons, List.nodup_cons] at hnodup
    rw [find?_key_cons]
    rcases List.mem_cons.1 hmem with rfl | hmem
    · exact if_pos rfl
    · have hne : h₀.key ≠ h.key := fun heq => hnodup.1 (heq ▸ List.mem_map_of_mem hmem)
      rw [if_neg hne]
      exact ih hnodup.2 hmem

/-- What a `KEYS` act's boxes do to a host's entry. -/
structure Boxed (g : Group) (e : ℕ) (named : Prop) (h h' : GroupHost) : Prop where
  older : e < g.epoch → h'.keyedEpoch = h.keyedEpoch ∧
    (¬named ∧ h'.backfilledTo = h.backfilledTo ∨
      named ∧ e + 1 = h.backfilledTo ∧ h'.backfilledTo = e)
  current : e = g.epoch → h'.backfilledTo = h.backfilledTo ∧
    (¬named ∧ h'.keyedEpoch = h.keyedEpoch ∨ named ∧ h'.keyedEpoch = e)

theorem keyHosts_find {n n' : ℕ} {ks : List Key}
    (hks : ks.foldlM (keyHost g e) (hosts, n) = .ok (hosts', n'))
    (hfind : hosts.find? (·.key = key) = some h) :
    ∃ h', hosts'.find? (·.key = key) = some h' ∧ Boxed g e (key ∈ ks) h h' := by
  induction ks generalizing hosts n h with
  | nil =>
    obtain ⟨rfl, rfl⟩ := Prod.mk.inj (Except.ok.inj hks)
    exact ⟨h, hfind, fun _ => ⟨rfl, .inl ⟨List.not_mem_nil, rfl⟩⟩,
      fun _ => ⟨rfl, .inl ⟨List.not_mem_nil, rfl⟩⟩⟩
  | cons k ks ih =>
    rw [List.foldlM_cons] at hks
    cases hkey : keyHost g e (hosts, n) k with
    | error err =>
      rw [hkey] at hks
      cases hks
    | ok at₁ =>
      rw [hkey] at hks
      obtain ⟨h₀, hfound, -, hcases⟩ := keyHost_cases hkey
      by_cases hk : k = key
      · subst hk
        have hself : k ∈ k :: ks := List.mem_cons_self
        obtain rfl := Option.some.inj (hfound.symm.trans hfind)
        rcases hcases with ⟨he, -, -, heq⟩ | ⟨hlt, hnext, -, heq⟩ | ⟨hge, hsame, -, heq⟩
        · have hstill : at₁.1.find? (·.key = k) = some { h₀ with keyedEpoch := e } := by
            rw [heq]
            exact find?_updateHost (fun _ => rfl) hfind
          obtain ⟨h', hfind', hboxed⟩ := ih hks hstill
          refine ⟨h', hfind', fun hlt => absurd he hlt.ne, fun _ => ?_⟩
          obtain ⟨hback, hkeyed⟩ := hboxed.current he
          exact ⟨hback, .inr ⟨hself, hkeyed.elim And.right And.right⟩⟩
        · have hstill : at₁.1.find? (·.key = k) = some { h₀ with backfilledTo := e } := by
            rw [heq]
            exact find?_updateHost (fun _ => rfl) hfind
          obtain ⟨h', hfind', hboxed⟩ := ih hks hstill
          refine ⟨h', hfind', fun _ => ?_, fun he => absurd he hlt.ne⟩
          obtain ⟨hkeyed, ⟨-, hback⟩ | ⟨-, hagain, -⟩⟩ := hboxed.older hlt
          · exact ⟨hkeyed, .inr ⟨hself, hnext, hback⟩⟩
          · exact absurd hagain (Nat.succ_ne_self e)
        · obtain ⟨h', hfind', hboxed⟩ := ih hks (heq ▸ hfind)
          refine ⟨h', hfind', fun hlt => absurd hge (not_le.2 hlt), fun he => ?_⟩
          obtain ⟨hback, ⟨-, hkeyed⟩ | ⟨-, hkeyed⟩⟩ := hboxed.current he
          · exact ⟨hback, .inr ⟨hself, hkeyed.trans (hsame he)⟩⟩
          · exact ⟨hback, .inr ⟨hself, hkeyed⟩⟩
      · have hstill : at₁.1.find? (·.key = key) = some h := by
          rcases hcases with ⟨-, -, -, heq⟩ | ⟨-, -, -, heq⟩ | ⟨-, -, -, heq⟩ <;> rw [heq]
          · refine (find?_updateHost_ne ?_ hk).trans hfind
            exact fun _ => rfl
          · refine (find?_updateHost_ne ?_ hk).trans hfind
            exact fun _ => rfl
          · exact hfind
        obtain ⟨h', hfind', hboxed⟩ := ih hks hstill
        have hmem : key ∈ k :: ks ↔ key ∈ ks := by
          rw [List.mem_cons]
          exact or_iff_right (Ne.symm hk)
        exact ⟨h', hfind', by rwa [hmem]⟩

end Entries

/-! ## Who was given what -/

/-- A `HOST` act that adds the entry of `key`, or starts its marks again. -/
def Anew (g : Group) (a : GroupAct) (key : Key) : Prop :=
  a.kind = .host ∧ deviceKey a.signer = key ∧ (groupHost g key = none ∨ a.value = 0)

/-- The host `key` was named in a `KEYS` act for `e` since its entry was added or reset. -/
inductive NamedFor (key : Key) (e : ℕ) : List (GroupAct × Bytes32) → Prop
  | keys {log : List (GroupAct × Bytes32)} {a : GroupAct} {hash : Bytes32} : a.kind = .keys →
      a.value = e → key ∈ boxKeys a → NamedFor key e (log ++ [(a, hash)])
  | later {log : List (GroupAct × Bytes32)} {a : GroupAct} {hash : Bytes32} :
      NamedFor key e log → ¬Anew (logGroup log) a key → NamedFor key e (log ++ [(a, hash)])

/-- A `KEYS` act signed by a listed host of a member. -/
def KeysByHost (g : Group) (a : GroupAct) : Prop :=
  a.kind = .keys ∧ ∃ s ∈ g.hosts, s.key = deviceKey a.signer ∧ s.owner = a.signer.owner ∧
    s.owner ∈ g.members

/-- The host `key` was given `e`, or is by `KEYS` acts of listed hosts behind the log. -/
def GivenOrCanBe (log : List (GroupAct × Bytes32)) (g : Group) (key : Key) (e : ℕ) : Prop :=
  NamedFor key e log ∨ ∃ more g', Accepted (log ++ more) g' ∧
    (∀ x ∈ more, KeysByHost g x.1) ∧ NamedFor key e (log ++ more)

/-- The epochs still open to a host's entry: the current one, and the ones below its mark
whose commitments are all kept down from it, as far as the log has places. -/
def Reaches (log : List (GroupAct × Bytes32)) (g : Group) (h : GroupHost) (e : ℕ) : Prop :=
  log.length < 2 ^ 32 ∧ (e = g.epoch ∨ e < h.backfilledTo ∧
    log.length + (h.backfilledTo - e) ≤ 2 ^ 32 ∧
    ∀ e', e ≤ e' → e' < h.backfilledTo → groupCommit g e' ≠ none)

theorem namedFor_snoc : NamedFor key e (log ++ [(a, hash)]) ↔
    a.kind = .keys ∧ a.value = e ∧ key ∈ boxKeys a ∨
      NamedFor key e log ∧ ¬Anew (logGroup log) a key := by
  constructor
  · intro h
    generalize hsnoc : log ++ [(a, hash)] = whole at h
    cases h with
    | keys hkind hvalue hmem =>
      obtain ⟨-, heq⟩ := List.append_inj' hsnoc rfl
      obtain ⟨rfl, -⟩ := Prod.mk.inj (List.cons.inj heq).1
      exact .inl ⟨hkind, hvalue, hmem⟩
    | later hnamed hsame =>
      obtain ⟨rfl, heq⟩ := List.append_inj' hsnoc rfl
      obtain ⟨rfl, -⟩ := Prod.mk.inj (List.cons.inj heq).1
      exact .inr ⟨hnamed, hsame⟩
  · rintro (⟨hkind, hvalue, hmem⟩ | ⟨hnamed, hsame⟩)
    · exact .keys hkind hvalue hmem
    · exact .later hnamed hsame

theorem not_anew (h : a.kind ≠ .host) : ¬Anew g a key := fun ⟨hkind, _⟩ => h hkind

/-- A host listed behind a member dropped was listed. -/
theorem groupHost_of_dropMember (htables : Tables g) {subject : Key} {h' : GroupHost}
    (hfound : groupHost (dropMember g subject) key = some h') : groupHost g key = some h' := by
  have hhosts : (dropMember g subject).hosts = g.hosts.filter (·.owner ≠ subject) := by
    unfold dropMember dropHostsOf
    dsimp only
    split <;> rfl
  unfold groupHost at hfound ⊢
  rw [hhosts] at hfound
  obtain rfl : h'.key = key := key_of_find? hfound
  exact find?_of_nodup htables.hosts_nodup (List.mem_filter.1 (List.mem_of_find?_eq_some hfound)).1

/-- A `KEYS` act keeps who is listed, and boxes the epoch to whom it names. -/
theorem entry_of_keys (htables : Tables g) (hepoch : g.epoch < 2 ^ 32)
    (hkeys : Groups.keys g a = .ok g') {h' : GroupHost} (hhost : groupHost g' key = some h') :
    a.value ≤ g.epoch ∧ ∃ h, groupHost g key = some h ∧ Boxed g a.value (key ∈ boxKeys a) h h' := by
  obtain ⟨hosts, fresh, -, hle, -, -, hfold, hcases⟩ := keys_cases hkeys hepoch
  have hhosts : g'.hosts = hosts := by
    rcases hcases with ⟨-, -, rfl⟩ | ⟨-, -, rfl⟩ <;> rfl
  unfold groupHost at hhost
  rw [hhosts] at hhost
  have hsame : hosts.map GroupHost.key = g.hosts.map GroupHost.key :=
    keyHosts_map (fun _ => rfl) (fun _ => rfl) hfold
  obtain rfl : h'.key = key := key_of_find? hhost
  have hin : h'.key ∈ g.hosts.map GroupHost.key :=
    hsame ▸ List.mem_map_of_mem (List.mem_of_find?_eq_some hhost)
  obtain ⟨h, hh, hkeyeq⟩ := List.mem_map.1 hin
  have hfind := find?_of_nodup htables.hosts_nodup hh
  rw [hkeyeq] at hfind
  obtain ⟨h₁, hfound, hboxed⟩ := keyHosts_find hfold hfind
  obtain rfl := Option.some.inj (hfound.symm.trans hhost)
  exact ⟨hle, h, hfind, hboxed⟩

/-- Where the entry of a listed host comes from: it is as it was, or new or reset, or was
given an epoch. -/
theorem JudgeStep.entry (hstep : JudgeStep g a hash g') (htables : Tables g)
    (hepoch : g.epoch < 2 ^ 32) {h' : GroupHost} (hhost : groupHost g' key = some h') :
    (¬Anew g a key ∧ ∃ h, groupHost g key = some h ∧ h'.keyedEpoch = h.keyedEpoch ∧
      h'.backfilledTo = h.backfilledTo) ∨
    h'.keyedEpoch = 0 ∧ h'.backfilledTo = g.epoch ∨
    a.kind = .keys ∧ a.value ≤ g.epoch ∧ ∃ h, groupHost g key = some h ∧
      Boxed g a.value (key ∈ boxKeys a) h h' := by
  have hdrop : a.kind ≠ .host → groupHost (dropMember g a.subject) key = some h' →
      ¬Anew g a key ∧ ∃ h, groupHost g key = some h ∧ h'.keyedEpoch = h.keyedEpoch ∧
        h'.backfilledTo = h.backfilledTo := fun hkind hfound =>
    ⟨not_anew hkind, h', groupHost_of_dropMember htables hfound, rfl, rfl⟩
  cases hstep with
  | add hkind _ _ _ =>
    exact .inl ⟨not_anew (by rw [hkind]; decide), h', hhost, rfl, rfl⟩
  | remove hkind _ _ _ => exact .inl (hdrop (by rw [hkind]; decide) hhost)
  | leave hkind _ _ _ => exact .inl (hdrop (by rw [hkind]; decide) hhost)
  | @approval g₁ k p _ _ happroves happrove =>
    rw [approve_frame happrove, happroves.frame] at hhost
    refine .inl ⟨not_anew ?_, h', hhost, rfl, rfl⟩
    cases happroves with
    | named hkind _ _ => rw [hkind]; decide
    | again hkind _ _ _ => rcases hkind with hkind | hkind <;> rw [hkind] <;> decide
    | own hkind _ => rcases hkind with hkind | hkind <;> rw [hkind] <;> decide
  | set hkind _ _ _ =>
    exact .inl ⟨not_anew (by rw [hkind]; decide), h', hhost, rfl, rfl⟩
  | host _ _ _ hnew hadd =>
    rw [addHost_frame hadd] at hhost
    unfold groupHost at hhost
    rw [List.find?_append] at hhost
    cases hold : g.hosts.find? (·.key = key) with
    | some h₀ =>
      rw [hold] at hhost
      obtain rfl := Option.some.inj hhost
      refine .inl ⟨fun hanew => ?_, h₀, hold, rfl, rfl⟩
      rw [hanew.2.1] at hnew
      unfold groupHost at hnew
      rw [hold] at hnew
      cases hnew
    | none =>
      rw [hold, Option.none_or] at hhost
      have hmem := List.mem_singleton.1 (List.mem_of_find?_eq_some hhost)
      exact .inr (.inl (by rw [hmem]; exact ⟨rfl, rfl⟩))
  | hostAgain _ _ _ hrename =>
    obtain ⟨h₀, hfound, -, rfl⟩ := renameHost_cases hrename
    have hkeeps : ∀ h : GroupHost, (if decide (a.value ≠ 0) = true then { h with seq := a.seq }
        else { h with seq := a.seq, keyedEpoch := 0, backfilledTo := g.epoch }).key = h.key := by
      intro h
      split <;> rfl
    by_cases hkey : deviceKey a.signer = key
    · rw [hkey] at hfound hhost
      have hnow := find?_updateHost hkeeps hfound
      obtain rfl := Option.some.inj (hhost.symm.trans hnow)
      by_cases hvalue : a.value = 0
      · rw [if_neg (by simp [hvalue])]
        exact .inr (.inl ⟨rfl, rfl⟩)
      · rw [if_pos (by simp [hvalue])]
        refine .inl ⟨fun hanew => ?_, h₀, hfound, rfl, rfl⟩
        rcases hanew.2.2 with hnone | hzero
        · rw [hfound] at hnone
          cases hnone
        · exact hvalue hzero
    · refine .inl ⟨fun hanew => hkey hanew.2.1, h', ?_, rfl, rfl⟩
      exact (find?_updateHost_ne hkeeps hkey).symm.trans hhost
  | keys hkind hkeys => exact .inr (.inr ⟨hkind, entry_of_keys htables hepoch hkeys hhost⟩)

/-- What the marks of a listed host say: the epoch it was keyed for was given it, and what it
is backfilled to has begun. -/
def MarksOk (log : List (GroupAct × Bytes32)) (g : Group) : Prop :=
  ∀ key h, groupHost g key = some h →
    (h.keyedEpoch ≠ 0 → NamedFor key h.keyedEpoch log) ∧ h.backfilledTo ≤ g.epoch

theorem Accepted.marksOk (h : Accepted log g) (hlen : log.length < 2 ^ 32) : MarksOk log g := by
  induction h with
  | create ha happ =>
    obtain ⟨-, -, -, rfl⟩ := apply_of_create ha happ
    intro key h hhost
    have hmem := List.mem_singleton.1 (List.mem_of_find?_eq_some hhost)
    rw [hmem]
    exact ⟨fun hne => absurd rfl hne, le_rfl⟩
  | @next log g g' a hash hlog ha happ ih =>
    rw [List.length_append, List.length_singleton] at hlen
    have hkept := hlog.kept (by omega)
    have hle := hkept.epoch_le
    have hgroup := hlog.eq
    obtain ⟨hcreate, -⟩ | ⟨-, -, -, -, -, next, hstep, rfl⟩ := groupApply_cases happ
    · exact absurd hcreate ha
    have hgrows := (hstep.epoch_le (by omega)).1
    intro key h' hhost
    rcases hstep.entry hkept.tables (by omega) hhost with
      ⟨hsame, h, hold, hkeyed, hback⟩ | ⟨hkeyed, hback⟩ | ⟨hkind, hvalue, h, hold, hboxed⟩
    · obtain ⟨hnamed, hmark⟩ := ih (by omega) key h hold
      rw [hkeyed, hback]
      exact ⟨fun hne => .later (hnamed hne) (hgroup ▸ hsame), hmark.trans hgrows⟩
    · rw [hkeyed, hback]
      exact ⟨fun hne => absurd rfl hne, hgrows⟩
    · obtain ⟨hnamed, hmark⟩ := ih (by omega) key h hold
      have hsame : ¬Anew (logGroup log) a key := not_anew (by rw [hkind]; decide)
      rcases hvalue.lt_or_eq with hlt | heq
      · obtain ⟨hkeyed, hback⟩ := hboxed.older hlt
        rw [hkeyed]
        refine ⟨fun hne => .later (hnamed hne) hsame, ?_⟩
        have : h'.backfilledTo ≤ h.backfilledTo := by
          rcases hback with ⟨-, heq⟩ | ⟨-, hnext, heq⟩ <;> omega
        exact this.trans (hmark.trans hgrows)
      · obtain ⟨hback, ⟨-, hkeyed⟩ | ⟨hin, hkeyed⟩⟩ := hboxed.current heq
        · rw [hkeyed, hback]
          exact ⟨fun hne => .later (hnamed hne) hsame, hmark.trans hgrows⟩
        · rw [hkeyed, hback]
          exact ⟨fun _ => .keys hkind rfl hin, hmark.trans hgrows⟩

/-! ## What is not open -/

/-- What `KEYS` acts behind a log may give a host of it. -/
structure KeysRun (log more : List (GroupAct × Bytes32)) (g g' : Group) (key : Key)
    (h h' : GroupHost) : Prop where
  epoch : g'.epoch = g.epoch
  commits : ∀ e < g.epoch, groupCommit g' e ≠ none → groupCommit g e ≠ none
  down : h'.backfilledTo ≤ h.backfilledTo
  acts : h.backfilledTo - h'.backfilledTo ≤ more.length
  open_ : ∀ e, h'.backfilledTo ≤ e → e < h.backfilledTo → groupCommit g e ≠ none
  named : ∀ e < g.epoch, NamedFor key e (log ++ more) →
    NamedFor key e log ∨ h'.backfilledTo ≤ e ∧ e < h.backfilledTo

theorem groupCommit_update {s : ℕ} {c : Bytes32} (hcommits : g'.commits =
    Function.update g.commits (slot s) ⟨s, c⟩) (hne : e ≠ s) (h : groupCommit g' e ≠ none) :
    groupCommit g e ≠ none := by
  unfold groupCommit at h ⊢
  rw [hcommits] at h
  by_cases hslot : slot e = slot s
  · rw [hslot, Function.update_self] at h
    split_ifs at h with hzero heq
    · exact absurd rfl h
    · exact absurd heq.symm hne
    · exact absurd rfl h
  · rwa [Function.update_of_ne hslot] at h

theorem JudgeStep.keys_of_kind (hstep : JudgeStep g a hash g') (hkind : a.kind = .keys) :
    Groups.keys g a = .ok g' := by
  have hne : ∀ k, ActKind.keys ≠ k → a.kind ≠ k := fun k hk heq => hk (hkind.symm.trans heq)
  cases hstep with
  | keys _ hkeys => exact hkeys
  | approval _ happroves _ =>
    cases happroves with
    | named hother _ _ => exact absurd hother (hne _ (by decide))
    | again hother _ _ _ =>
      rcases hother with hother | hother <;> exact absurd hother (hne _ (by decide))
    | own hother _ =>
      rcases hother with hother | hother <;> exact absurd hother (hne _ (by decide))
  | add hother _ _ _ => exact absurd hother (hne _ (by decide))
  | remove hother _ _ _ => exact absurd hother (hne _ (by decide))
  | leave hother _ _ _ => exact absurd hother (hne _ (by decide))
  | set hother _ _ _ => exact absurd hother (hne _ (by decide))
  | host hother _ _ _ _ => exact absurd hother (hne _ (by decide))
  | hostAgain hother _ _ _ => exact absurd hother (hne _ (by decide))

variable {h : GroupHost}

variable {h' : GroupHost} {more : List (GroupAct × Bytes32)}

/-- One act more. -/
theorem KeysRun.step {g₁ : Group} (hrun : KeysRun log more g g₁ key h h')
    (hhost' : groupHost g₁ key = some h') (h₁ : Accepted (log ++ more) g₁) (hkind : a.kind = .keys)
    (happ : groupApply g₁ a hash = (.ok (), g')) :
    ∃ h'', groupHost g' key = some h'' ∧ KeysRun log (more ++ [(a, hash)]) g g' key h h'' := by
  obtain ⟨hcreate, -⟩ | ⟨-, hopen, -, -, -, next, hstep, rfl⟩ := groupApply_cases happ
  · rw [hkind] at hcreate
    cases hcreate
  obtain ⟨hle, hseq⟩ := h₁.places
  have hlt : (log ++ more).length < 2 ^ 32 :=
    lt_of_le_of_ne hle fun heq =>
    hopen (by rw [hseq, heq, Nat.mod_self])
  have hkept := h₁.kept hlt
  have hepoch := hkept.epoch_le
  obtain ⟨hosts, fresh, hpos, hvalue, -, -, hfold, hcases⟩ :=
    keys_cases (hstep.keys_of_kind hkind) (by omega)
  obtain ⟨h'', hfound, hboxed⟩ := keyHosts_find hfold hhost'
  have hnext : next.epoch = g₁.epoch ∧ next.hosts = hosts ∧
      (∀ e < g₁.epoch, groupCommit next e ≠ none → groupCommit g₁ e ≠ none) ∧
      (a.value < g₁.epoch → groupCommit g₁ a.value ≠ none) := by
    rcases hcases with ⟨hsome, -, rfl⟩ | ⟨-, hcurrent, rfl⟩
    · exact ⟨rfl, rfl, fun _ _ hne => hne, fun _ => by rw [hsome]; exact Option.some_ne_none _⟩
    · exact ⟨rfl, rfl, fun e he => groupCommit_update rfl (hcurrent ▸ he.ne),
        fun hlt => absurd hcurrent hlt.ne⟩
  obtain ⟨hsameEpoch, hsameHosts, hsameCommits, hcommitted⟩ := hnext
  refine ⟨h'', by rw [← hsameHosts] at hfound; exact hfound, ?_⟩
  have hnamed : ∀ e < g.epoch, NamedFor key e (log ++ (more ++ [(a, hash)])) →
      a.value = e ∧ key ∈ boxKeys a ∨ NamedFor key e log ∨
        h'.backfilledTo ≤ e ∧ e < h.backfilledTo := by
    intro e he hnamed
    rw [← List.append_assoc, namedFor_snoc] at hnamed
    rcases hnamed with ⟨-, hvalue, hin⟩ | ⟨hnamed, -⟩
    · exact .inl ⟨hvalue, hin⟩
    · exact .inr (hrun.named e he hnamed)
  have hsum : (more ++ [(a, hash)]).length = more.length + 1 := by
    rw [List.length_append, List.length_singleton]
  obtain ⟨hbefore, hcommits, hdown, hacts, hlevels, -⟩ := hrun
  have hcommits' : ∀ e < g.epoch, groupCommit next e ≠ none → groupCommit g e ≠ none :=
    fun e he hne => hcommits e he (hsameCommits e (hbefore ▸ he) hne)
  rcases hvalue.lt_or_eq with hold | hcurrent
  · obtain ⟨-, ⟨hout, hback⟩ | ⟨hin, hnext, hback⟩⟩ := hboxed.older hold
    · refine ⟨hsameEpoch.trans hbefore, hcommits', by omega, by omega,
        fun e hge => hlevels e (hback ▸ hge), fun e he hat => ?_⟩
      rcases hnamed e he hat with ⟨-, hin⟩ | hrest
      · exact absurd hin hout
      · rwa [hback]
    · refine ⟨hsameEpoch.trans hbefore, hcommits', by omega, by omega,
        fun e hge hlt => ?_, fun e he hat => ?_⟩
      · rcases (hback ▸ hge : a.value ≤ e).eq_or_lt with rfl | hgt
        · exact hcommits _ (hbefore ▸ hold) (hcommitted hold)
        · exact hlevels e (by omega) hlt
      · rcases hnamed e he hat with ⟨rfl, -⟩ | hnamed | ⟨hge, hlt⟩
        · exact .inr ⟨hback.le, by omega⟩
        · exact .inl hnamed
        · exact .inr ⟨by omega, hlt⟩
  · obtain ⟨hback, -⟩ := hboxed.current hcurrent
    refine ⟨hsameEpoch.trans hbefore, hcommits', by omega, by omega,
      fun e hge => hlevels e (hback ▸ hge), fun e he hat => ?_⟩
    rcases hnamed e he hat with ⟨heq, -⟩ | hrest
    · omega
    · rwa [hback]

/-- **What `KEYS` acts reach**: from a host's mark down, one epoch an act. -/
theorem keys_run (hlog : Accepted log g) (hhost : groupHost g key = some h)
    (hmore : Accepted (log ++ more) g') (hkeys : ∀ x ∈ more, x.1.kind = .keys) :
    ∃ h', groupHost g' key = some h' ∧ KeysRun log more g g' key h h' := by
  induction more using List.reverseRecOn generalizing g' with
  | nil =>
    rw [List.append_nil] at hmore
    obtain rfl := hlog.unique hmore
    exact ⟨h, hhost, rfl, fun _ _ hne => hne, le_rfl, by simp,
      fun e hge hlt => absurd hge (not_le.2 hlt), fun e _ hnamed => by
        rw [List.append_nil] at hnamed
        exact .inl hnamed⟩
  | append_singleton more x ih =>
    obtain ⟨a, hash⟩ := x
    rw [← List.append_assoc] at hmore
    obtain ⟨g₁, h₁, -, happ⟩ := hmore.last (by simp [hlog.ne_nil])
    obtain ⟨h', hhost', hrun⟩ := ih h₁ fun x hx => hkeys x (List.mem_append_left _ hx)
    exact hrun.step hhost' h₁ (hkeys (a, hash) (by simp)) happ

/-! ## What is open -/

/-- A `KEYS` act behind a group, of the host `h` for itself. -/
def keysAct (g : Group) (h : GroupHost) (e : ℕ) (commit : Bytes32) : GroupAct where
  kind := .keys
  seq := g.seq
  group := g.id
  prev := g.head
  subject := commit
  setting := 0
  value := e
  madeAt := 0
  payload := Session.bytes32 h.key ++ List.replicate 82 0
  signer := plainDevice h.owner h.key
  sig := 0

theorem keysAct_kind (g : Group) (h : GroupHost) (e : ℕ) (commit : Bytes32) :
    (keysAct g h e commit).kind ≠ .create :=
  show ActKind.keys ≠ .create by decide

theorem deviceKey_plain (owner key : Key) : deviceKey (plainDevice owner key) = key := by
  unfold deviceKey plainDevice
  dsimp only
  rw [List.cons_append, List.cons_append, getBe_cons (by decide), getBe_cons (by decide)]
  unfold Session.bytes32
  rw [getBe_putBe_of_lt _ (toNat_lt_bytes key), BitVec.ofNat_toNat, BitVec.setWidth_eq]

theorem boxKeys_keysAct (g : Group) (h : GroupHost) (e : ℕ) (commit : Bytes32) :
    boxKeys (keysAct g h e commit) = [h.key] := by
  have hlen : (keysAct g h e commit).payload.length / keyEntryLen = 1 := by
    unfold keysAct
    rw [List.length_append, Session.length_bytes32, List.length_replicate]
    rfl
  unfold boxKeys
  rw [hlen]
  show [BitVec.ofNat 256 (getBe (Session.bytes32 h.key ++ List.replicate 82 0) 0 32)] = [h.key]
  unfold Session.bytes32
  rw [getBe_putBe_of_lt _ (toNat_lt_bytes h.key), BitVec.ofNat_toNat, BitVec.setWidth_eq]

/-- A host's `KEYS` act is taken where its box is. -/
theorem keysAct_applied {hosts : List GroupHost} {c : Bytes32} (htables : Tables g)
    (hepoch : g.epoch < 2 ^ 32) (hhost : groupHost g h.key = some h)
    (hcommit : groupCommit g e = some c) (he : e ≤ g.epoch) (hseq : g.seq ≠ 0)
    (hbox : keyHost g e (g.hosts, 0) h.key = .ok (hosts, 1)) :
    groupApply g (keysAct g h e c) hash =
      (.ok (), { g with hosts := hosts, head := hash, seq := (g.seq + 1) % 2 ^ 32 }) := by
  have howner := htables.host_member h (List.mem_of_find?_eq_some hhost)
  have hfold : (boxKeys (keysAct g h e c)).foldlM (keyHost g e) (g.hosts, 0) = .ok (hosts, 1) := by
    rw [boxKeys_keysAct, List.foldlM_cons, hbox]
    rfl
  have hkeys : keys g (keysAct g h e c) = .ok { g with hosts := hosts } := by
    have hsigner : deviceKey (keysAct g h e c).signer = h.key := deviceKey_plain _ _
    have hlen : (keysAct g h e c).payload.length = 114 := by
      unfold keysAct
      rw [List.length_append, Session.length_bytes32, List.length_replicate]
    have hvalue : (keysAct g h e c).value = e := rfl
    unfold keys
    dsimp only
    rw [if_neg, if_neg, hvalue, Nat.mod_eq_of_lt (lt_of_le_of_lt he hepoch), if_neg, hfold]
    · dsimp only
      rw [hcommit]
      dsimp only
      rw [if_neg Nat.one_ne_zero]
    · unfold commitFits
      rw [hcommit]
      simp [keysAct]
    · rw [hlen, hvalue]
      simp only [not_or, not_lt]
      exact ⟨(groupCommit_some hcommit).1, he, by decide, by decide, by decide⟩
    · rw [hsigner, hhost, not_or, not_not]
      exact ⟨howner, Option.some_ne_none _⟩
  unfold groupApply
  rw [if_neg (keysAct_kind g h e c), if_neg (by simp [keysAct, hseq])]
  have hjudge : judge g (keysAct g h e c) hash = .ok { g with hosts := hosts } := hkeys
  rw [hjudge]

/-- One epoch given: the act, and the group behind it. -/
theorem given_step {hosts : List GroupHost} {c : Bytes32} (hlog : Accepted log g)
    (hlen : log.length < 2 ^ 32) (hhost : groupHost g h.key = some h)
    (hcommit : groupCommit g e = some c) (he : e ≤ g.epoch)
    (hbox : keyHost g e (g.hosts, 0) h.key = .ok (hosts, 1)) :
    Accepted (log ++ [(keysAct g h e c, 0)])
      { g with hosts := hosts, head := 0, seq := (g.seq + 1) % 2 ^ 32 } ∧
    NamedFor h.key e (log ++ [(keysAct g h e c, 0)]) ∧ KeysByHost g (keysAct g h e c) := by
  have hkept := hlog.kept hlen
  have hepoch := hkept.epoch_le
  have hpos := List.length_pos_iff.2 hlog.ne_nil
  have hmem := List.mem_of_find?_eq_some hhost
  refine ⟨hlog.next (keysAct_kind g h e c) (keysAct_applied hkept.tables
    (by omega) hhost hcommit he (by rw [hkept.seq]; omega) hbox), .keys rfl rfl ?_, rfl, h, hmem,
    (deviceKey_plain _ _).symm, rfl, hkept.tables.host_member h hmem⟩
  rw [boxKeys_keysAct]
  exact List.mem_singleton_self _

/-- A box for the next epoch below a host's. -/
theorem keyHost_back {e' : ℕ} (hback : g.backfill ≠ 0) (hhost : groupHost g key = some h)
    (hle : h.backfilledTo ≤ g.epoch) (hnext : h.backfilledTo = e' + 1) :
    keyHost g e' (g.hosts, 0) key =
      .ok (updateHost key (fun h => { h with backfilledTo := e' }) g.hosts, 1) := by
  unfold keyHost
  rw [show g.hosts.find? (·.key = key) = some h from hhost]
  dsimp only
  rw [if_neg (fun hall => hback hall.2.1), if_neg (by omega), if_pos (by omega),
    if_neg (by omega), if_neg (by omega)]

/-- **What is open is given**, one epoch an act. -/
theorem given_of_below {d : ℕ} (hlog : Accepted log g) (hback : g.backfill ≠ 0)
    (hhost : groupHost g key = some h) (hle : h.backfilledTo ≤ g.epoch)
    (hd : h.backfilledTo = e + (d + 1)) (hroom : log.length + (d + 1) ≤ 2 ^ 32)
    (hopen : ∀ e', e ≤ e' → e' < h.backfilledTo → groupCommit g e' ≠ none) :
    ∃ more g', Accepted (log ++ more) g' ∧ (∀ x ∈ more, KeysByHost g x.1) ∧
      NamedFor key e (log ++ more) := by
  induction d generalizing log g h with
  | zero =>
    obtain rfl := key_of_find? hhost
    obtain ⟨c, hc⟩ := Option.ne_none_iff_exists'.1 (hopen e le_rfl (by omega))
    obtain ⟨haccepted, hnamed, hby⟩ := given_step hlog (by omega) hhost hc (by omega)
      (keyHost_back hback hhost hle (by omega))
    refine ⟨_, _, haccepted, fun x hx => ?_, hnamed⟩
    rw [List.mem_singleton.1 hx]
    exact hby
  | succ d ih =>
    obtain rfl := key_of_find? hhost
    obtain ⟨c, hc⟩ := Option.ne_none_iff_exists'.1
      (hopen (e + (d + 1)) (by omega) (by omega))
    obtain ⟨haccepted, -, hby⟩ := given_step hlog (by omega) hhost hc (by omega)
      (keyHost_back hback hhost hle (by omega))
    have hhost₁ : groupHost { g with
        hosts := updateHost h.key (fun h => { h with backfilledTo := e + (d + 1) }) g.hosts
        head := 0, seq := (g.seq + 1) % 2 ^ 32 } h.key =
        some { h with backfilledTo := e + (d + 1) } := by
      refine find?_updateHost ?_ hhost
      exact fun _ => rfl
    obtain ⟨more, g', hmore, hkeys, hnamed⟩ := ih haccepted hback hhost₁
      (show e + (d + 1) ≤ g.epoch by omega) rfl
      (by rw [List.length_append, List.length_singleton]; omega)
      fun e' hge hlt => hopen e' hge (by
        have : e' < e + (d + 1) := hlt
        omega)
    rw [List.append_assoc, List.singleton_append] at hmore hnamed
    refine ⟨_, g', hmore, fun x hx => ?_, hnamed⟩
    rcases List.mem_cons.1 hx with rfl | hx
    · exact hby
    · -- the hosts are named as they were
      obtain ⟨hkind, s, hs, hskey, howner, hmember⟩ := hkeys x hx
      have hnames : (updateHost h.key (fun h => { h with backfilledTo := e + (d + 1) })
          g.hosts).map GroupHost.name = g.hosts.map GroupHost.name :=
        map_updateHost fun _ => rfl
      have hin : s.name ∈ g.hosts.map GroupHost.name := hnames ▸ List.mem_map_of_mem hs
      obtain ⟨s', hs', heq⟩ := List.mem_map.1 hin
      obtain ⟨howner', hkey'⟩ := Prod.mk.inj heq
      exact ⟨hkind, s', hs', hkey'.trans hskey, howner'.trans howner, howner' ▸ hmember⟩

section Given

variable {h : GroupHost} {c : Bytes32}

theorem named_or_reaches (hlog : Accepted log g) (hhost : h ∈ g.hosts) (he : e ≤ g.epoch)
    (hgiven : GivenOrCanBe log g h.key e) : NamedFor h.key e log ∨ Reaches log g h e := by
  rcases hgiven with hnamed | ⟨more, g', hmore, hkeys, hnamed⟩
  · exact .inl hnamed
  obtain ⟨hplaces, -⟩ := hmore.places
  rw [List.length_append] at hplaces
  rcases eq_or_ne more [] with rfl | hsome
  · rw [List.append_nil] at hnamed
    exact .inl hnamed
  have hpos := List.length_pos_iff.2 hsome
  have hlt : log.length < 2 ^ 32 := by omega
  have hfind := find?_of_nodup (hlog.kept hlt).tables.hosts_nodup hhost
  obtain ⟨h', -, hrun⟩ := keys_run hlog hfind hmore fun x hx => (hkeys x hx).1
  rcases he.eq_or_lt with heq | hold
  · exact .inr ⟨hlt, .inl heq⟩
  rcases hrun.named e hold hnamed with hnamed | ⟨hge, hbelow⟩
  · exact .inl hnamed
  have hacts := hrun.acts
  exact .inr ⟨hlt, .inr ⟨hbelow, by omega,
    fun e' hle hlt' => hrun.open_ e' (hge.trans hle) hlt'⟩⟩

theorem given_of_reaches (hlog : Accepted log g) (hback : g.backfill ≠ 0) (hhost : h ∈ g.hosts)
    (he : e ≤ g.epoch) (hcommit : groupCommit g e = some c) (hreaches : Reaches log g h e) :
    GivenOrCanBe log g h.key e := by
  obtain ⟨hlt, hopen⟩ := hreaches
  have hkept := hlog.kept hlt
  have hfind := find?_of_nodup hkept.tables.hosts_nodup hhost
  obtain ⟨hnamed, hmark⟩ := hlog.marksOk hlt h.key h hfind
  rcases hopen with heq | ⟨hbelow, hroom, hopen⟩
  · by_cases hkeyed : h.keyedEpoch = e
    · rw [hkeyed] at hnamed
      exact .inl (hnamed (groupCommit_some hcommit).1)
    · have hbox : keyHost g e (g.hosts, 0) h.key =
          .ok (updateHost h.key (fun h => { h with keyedEpoch := e }) g.hosts, 1) := by
        unfold keyHost
        rw [hfind]
        dsimp only
        rw [if_neg (fun hall => hback hall.2.1), if_pos ⟨heq, hkeyed⟩]
      obtain ⟨haccepted, hgiven, hby⟩ := given_step hlog hlt hfind hcommit he hbox
      refine .inr ⟨_, _, haccepted, fun x hx => ?_, hgiven⟩
      rw [List.mem_singleton.1 hx]
      exact hby
  · exact .inr (given_of_below (d := h.backfilledTo - e - 1) hlog hback hfind hmark (by omega)
      (by omega) hopen)

/-- **What a host can be given** of a group that backfills: what it was given, and what is
open to its entry. -/
theorem given_iff (hlog : Accepted log g) (hback : g.backfill ≠ 0) (hhost : h ∈ g.hosts)
    (he : e ≤ g.epoch) (hcommit : groupCommit g e = some c) :
    GivenOrCanBe log g h.key e ↔ NamedFor h.key e log ∨ Reaches log g h e :=
  ⟨named_or_reaches hlog hhost he, fun hor =>
    hor.elim .inl (given_of_reaches hlog hback hhost he hcommit)⟩

end Given

/-- A box for a host is in the log it is named in. -/
theorem NamedFor.mem (h : NamedFor key e log) :
    ∃ x ∈ log, x.1.kind = .keys ∧ x.1.value = e ∧ key ∈ boxKeys x.1 := by
  induction h with
  | keys hkind hvalue hin =>
    exact ⟨_, List.mem_append_right _ (List.mem_singleton_self _), hkind, hvalue, hin⟩
  | later _ _ ih =>
    obtain ⟨x, hx, hkeys⟩ := ih
    exact ⟨x, List.mem_append_left _ hx, hkeys⟩

/-- Member 2's host joins in epoch 2, of which only the host of 1 is keyed when member 3
begins epoch 3. -/
def skippedLog : List (GroupAct × Bytes32) :=
  [(plainAct .create 0 0 0 0 1, 11), (plainAct .add 1 11 11 2 1, 12),
    (plainAct .host 2 11 12 0 2, 13),
    ({ plainAct .keys 3 11 13 5 1 with
      value := 2, payload := Session.bytes32 1 ++ List.replicate 82 0 }, 14),
    (plainAct .add 4 11 14 3 1, 15)]

theorem skippedLog_accepted : Accepted skippedLog (logGroup skippedLog) :=
  (Accepted.create (g := blank) rfl rfl).append (by decide +kernel)

/-- Member 2's host joins in epoch 3; of the two epochs before the host of 1 alone has keys. -/
def reachingLog : List (GroupAct × Bytes32) :=
  [(plainAct .create 0 0 0 0 1, 11),
    ({ plainAct .keys 1 11 11 4 1 with
      value := 1, payload := Session.bytes32 1 ++ List.replicate 82 0 }, 12),
    (plainAct .add 2 11 12 2 1, 13),
    ({ plainAct .keys 3 11 13 5 1 with
      value := 2, payload := Session.bytes32 1 ++ List.replicate 82 0 }, 14),
    (plainAct .add 4 11 14 3 1, 15), (plainAct .host 5 11 15 0 2, 16)]

theorem reachingLog_accepted : Accepted reachingLog (logGroup reachingLog) :=
  (Accepted.create (g := blank) rfl rfl).append (by decide +kernel)

/-- It can be given epoch 1, behind epoch 2. -/
theorem reached_given : GivenOrCanBe reachingLog (logGroup reachingLog) 2 1 := by
  have hepochs : ∀ e, 1 ≤ e → e < 3 → groupCommit (logGroup reachingLog) e ≠ none := by
    have hboth : groupCommit (logGroup reachingLog) 1 ≠ none ∧
        groupCommit (logGroup reachingLog) 2 ≠ none := by decide +kernel
    intro e hlo hhi
    obtain rfl | rfl : e = 1 ∨ e = 2 := by omega
    · exact hboth.1
    · exact hboth.2
  exact (@given_iff _ _ _ ⟨2, 2, 5, 3, 0, 3⟩ 4 reachingLog_accepted (by decide +kernel)
    (by decide +kernel) (by decide +kernel) (by decide +kernel)).2
    (.inr ⟨by decide, .inr ⟨by decide, by decide, hepochs⟩⟩)

/-- **The host of 2 never is**, though the commitment of epoch 2 is kept. -/
theorem skipped_never_given : Accepted skippedLog (logGroup skippedLog) ∧
    (logGroup skippedLog).backfill = 1 ∧
    (⟨2, 2, 2, 2, 0, 2⟩ : GroupHost) ∈ (logGroup skippedLog).hosts ∧
    2 ≤ (logGroup skippedLog).epoch ∧ groupCommit (logGroup skippedLog) 2 = some 5 ∧
    ¬GivenOrCanBe skippedLog (logGroup skippedLog) 2 2 := by
  have hmem : (⟨2, 2, 2, 2, 0, 2⟩ : GroupHost) ∈ (logGroup skippedLog).hosts := by decide +kernel
  have hepoch : (logGroup skippedLog).epoch = 3 := by decide +kernel
  refine ⟨skippedLog_accepted, by decide +kernel, hmem, by omega, by decide +kernel,
    fun hgiven => ?_⟩
  rcases named_or_reaches skippedLog_accepted hmem (by omega) hgiven with
    hnamed | ⟨-, heq | ⟨hbelow, -⟩⟩
  · obtain ⟨x, hx, hkeys⟩ := hnamed.mem
    have hnone : ∀ x ∈ skippedLog, ¬(x.1.kind = .keys ∧ x.1.value = 2 ∧ 2 ∈ boxKeys x.1) := by
      decide +kernel
    exact hnone x hx hkeys
  · omega
  · exact absurd hbelow (by decide)

end Groups
end Fuzznet
