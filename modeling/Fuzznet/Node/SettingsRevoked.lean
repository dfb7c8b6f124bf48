/-
# Settings whose acts fall

One row is kept for a cell and a rank, and a setting whose act stands no more is passed over
where it is read.  What it took the place of is gone from the row, so what is read behind a
revocation depends on what was learned before it: a setting that falls behind another it
replaced leaves the rank empty (`revoked_orders_differ`).

What is read is the greatest of the settings learned whose acts stand, in every state of a
run, exactly if no step of it leaves the rank to a setting that has fallen
(`RevokeEvent.Meets`, `revoked_reads`): a setting learned whose act does not stand supersedes
none that stands, and where the act of the one standing falls no other's stands.
-/

import Fuzznet.Lib.Runs
import Fuzznet.Node.SettingsConverge

namespace Fuzznet
namespace Node

open Wire Lib State

/-- What `fzn_node_apply_act_stands` answers, at one time. -/
abbrev Judgement := Key → SettingRank → Bytes32 → Bool

/-- A node under a judgement. -/
def judging (ns : Settings) (stands : Judgement) : Settings := { ns with apply := some stands }

/-- A setting learned, or another judgement. -/
inductive RevokeEvent
  | learn (bytes : Bytes) (now : UInt64)
  | judge (stands : Judgement)

/-- The slot, and the judgement it is read under. -/
structure RevokeState where
  disk : SettingsDisk
  stands : Judgement

/-- One event, with everything learned at the rank `r`. -/
def revokeStep (ns : Settings) (r : SettingRank) (x : RevokeState) : RevokeEvent → RevokeState
  | .learn bytes now =>
    ⟨(settingsLearn { judging ns x.stands with now := now } x.disk bytes r).2, x.stands⟩
  | .judge stands => ⟨x.disk, stands⟩

/-- A run from an empty slot. -/
def revokeRun (ns : Settings) (r : SettingRank) (stands : Judgement) (events : List RevokeEvent) :
    RevokeState :=
  events.foldl (revokeStep ns r) ⟨⟨∅, []⟩, stands⟩

/-- What a run learns. -/
def learnedIn (events : List RevokeEvent) : Set Bytes := {b | ∃ now, .learn b now ∈ events}

/-- A run of settings of one cell, under a judgement that only falls. -/
structure RevokeRun (ns : Settings) (c : Bytes32) (r : SettingRank) (stands : Judgement)
    (events : List RevokeEvent) : Prop where
  cells : ∀ b ∈ learnedIn events, ∃ s, settingOpen ns.verify b = .ok s ∧
    settingCell ns.hash s = some c
  falls : ∀ pre stands', pre ++ [.judge stands'] <+: events → ∀ k rank act,
    stands' k rank act = true → (revokeRun ns r stands pre).stands k rank act = true

/-- A setting that opens, and whose act stands. -/
def StandsAs (ns : Settings) (stands : Judgement) (r : SettingRank) (b : Bytes) (s : Setting) :
    Prop :=
  settingOpen ns.verify b = .ok s ∧ actStands (judging ns stands) s r b = true

/-- The setting standing is the greatest of those learned whose acts stand. -/
def ReadsGreatest (ns : Settings) (c : Bytes32) (r : SettingRank) (L : Set Bytes)
    (x : RevokeState) : Prop :=
  match standing (judging ns x.stands) x.disk c r with
  | none => ∀ b ∈ L, ∀ s, ¬ StandsAs ns x.stands r b s
  | some (s, b) => b ∈ L ∧ StandsAs ns x.stands r b s ∧
      ∀ b' ∈ L, ∀ s', StandsAs ns x.stands r b' s' → s'.place ≤ s.place

/-- What a step has to meet, where the settings of `L` are learned: what is learned and does
not stand supersedes none that does, and what stands falls only where no other stands. -/
def RevokeEvent.Meets (ns : Settings) (c : Bytes32) (r : SettingRank) (L : Set Bytes)
    (x : RevokeState) : RevokeEvent → Prop
  | .learn b _ => ∀ s, settingOpen ns.verify b = .ok s → ¬ StandsAs ns x.stands r b s →
      ∀ s' b', standing (judging ns x.stands) x.disk c r = some (s', b') →
        supersedes s s' = false
  | .judge stands => ∀ s b, standing (judging ns x.stands) x.disk c r = some (s, b) →
      ¬ StandsAs ns stands r b s → ∀ b' ∈ L, ∀ s', ¬ StandsAs ns stands r b' s'

/-- Every step of a run meets. -/
def EachMeets (ns : Settings) (c : Bytes32) (r : SettingRank) (stands : Judgement)
    (events : List RevokeEvent) : Prop :=
  ∀ pre e, pre ++ [e] <+: events → e.Meets ns c r (learnedIn pre) (revokeRun ns r stands pre)

/-- What `fzn_node_settings_get` reads of a cell. -/
def RevokeState.get (ns : Settings) (x : RevokeState) (n : CellName) :
    Option (Bytes × SettingRank) :=
  settingsGet (judging ns x.stands) x.disk n

/-- What `fzn_node_settings_standing_of` reads of a cell. -/
def RevokeState.standingOf (ns : Settings) (x : RevokeState) (n : CellName) :
    Option (UInt64 × Key) :=
  settingsStandingOf (judging ns x.stands) x.disk n

/-! ## One row -/

/-- The slot holds one row at the most, of something learned. -/
structure OneRow (r : SettingRank) (row : Bytes32) (L : Set Bytes) (d : SettingsDisk) : Prop where
  answers : d.outcomes = []
  held : d.load row = none ∧ L = ∅ ∨ ∃ b ∈ L, ∃ t, d.load row = some (rowBytes r t b)
  alone : ∀ row', row' ≠ row → d.load row' = none

section Row

variable {ns : Settings} {c row : Bytes32} {r : SettingRank} {L : Set Bytes} {d : SettingsDisk}
  {stands stands' : Judgement} {s s' : Setting} {b : Bytes} {x : RevokeState}
  (hrow : settingRowOf ns.hash c r = some row)
  (hcells : ∀ b ∈ L, ∃ s, settingOpen ns.verify b = .ok s ∧ settingCell ns.hash s = some c)
include hrow

variable {b : Bytes} {now : UInt64}

/-- The slot behind a setting learned. -/
theorem OneRow.learn_disk (hone : OneRow r row L d) (hopen : settingOpen ns.verify b = .ok s)
    (hcell : settingCell ns.hash s = some c) :
    (settingsLearn { judging ns stands with now := now } d b r).2 =
      if metBy (standing (judging ns stands) d c r) s b = none then
        ⟨d.rows.insert row (rowBytes r now b), []⟩
      else d :=
  @settingsLearn_eq { judging ns stands with now := now } d hone.answers b s c row r hopen hcell
    hrow

include hcells

/-- What stands is the row, where its act does. -/
theorem OneRow.standing_iff (hone : OneRow r row L d) :
    standing (judging ns stands) d c r = some (s, b) ↔
      (∃ t, d.load row = some (rowBytes r t b)) ∧ b ∈ L ∧ StandsAs ns stands r b s := by
  have hrow' : settingRowOf (judging ns stands).hash c r = some row := hrow
  rw [Node.standing_iff hrow']
  constructor
  · rintro ⟨held, t, hload, -, hread, hopen, -, hact⟩
    rcases hone.held with ⟨hnone, -⟩ | ⟨b', hb', t', hsome⟩
    · cases hnone.symm.trans hload
    · obtain ⟨s', hopen', -⟩ := hcells b' hb'
      obtain rfl := Option.some.inj (hsome.symm.trans hload)
      rw [rowRead_rowBytes r t' (ne_nil_of_open hopen')] at hread
      obtain ⟨-, -, rfl⟩ := SettingRow.mk.inj (Option.some.inj hread)
      exact ⟨⟨t', hload⟩, hb', hopen, hact⟩
  · rintro ⟨⟨t, hload⟩, hb, hopen, hact⟩
    obtain ⟨s', hopen', hcell⟩ := hcells b hb
    obtain rfl := Except.ok.inj (hopen.symm.trans hopen')
    refine ⟨_, t, hload, ?_, rowRead_rowBytes r t (ne_nil_of_open hopen), hopen, hcell, hact⟩
    rw [length_rowBytes, rowMax]
    exact Nat.add_le_add_left (settingOpen_length hopen).2 _

/-- A fallen act stands nowhere above. -/
theorem OneRow.standing_mono (hone : OneRow r row L d)
    (hfalls : ∀ k rank act, stands' k rank act = true → stands k rank act = true)
    (h : standing (judging ns stands') d c r = some (s, b)) :
    standing (judging ns stands) d c r = some (s, b) := by
  obtain ⟨hload, hb, hopen, hact⟩ := (hone.standing_iff hrow hcells).1 h
  refine (hone.standing_iff hrow hcells).2 ⟨hload, hb, hopen, ?_⟩
  obtain ⟨act, hhash, hstands⟩ := (Option.any_eq_true _ _).1 hact
  exact (Option.any_eq_true _ _).2 ⟨act, hhash, hfalls _ _ _ hstands⟩

/-- A setting learned leaves one row. -/
theorem OneRow.learn (hone : OneRow r row L d) (hopen : settingOpen ns.verify b = .ok s)
    (hcell : settingCell ns.hash s = some c) :
    OneRow r row (insert b L) (settingsLearn { judging ns stands with now := now } d b r).2 := by
  rw [hone.learn_disk hrow hopen hcell]
  split
  next =>
    refine ⟨rfl, .inr ⟨b, Set.mem_insert _ _, now, AList.lookup_insert _⟩, fun row' hne => ?_⟩
    exact (AList.lookup_insert_ne hne).trans (hone.alone row' hne)
  next hmet =>
    refine ⟨hone.answers, ?_, hone.alone⟩
    rcases hone.held with ⟨hnone, -⟩ | ⟨b', hb', t, hsome⟩
    · refine absurd ?_ hmet
      cases hstanding : standing (judging ns stands) d c r with
      | none => rfl
      | some top =>
        obtain ⟨⟨t, hload⟩, -⟩ := (hone.standing_iff hrow hcells).1 hstanding
        cases hnone.symm.trans hload
    · exact .inr ⟨b', Set.mem_insert_of_mem _ hb', t, hsome⟩

omit hrow in
theorem cells_insert (hopen : settingOpen ns.verify b = .ok s)
    (hcell : settingCell ns.hash s = some c) :
    ∀ b' ∈ insert b L, ∃ s, settingOpen ns.verify b' = .ok s ∧ settingCell ns.hash s = some c := by
  rintro b' (rfl | hb')
  · exact ⟨s, hopen, hcell⟩
  · exact hcells b' hb'

/-- The row written is what stands, where its act does. -/
theorem OneRow.learn_standing (hone : OneRow r row L d) (hopen : settingOpen ns.verify b = .ok s)
    (hcell : settingCell ns.hash s = some c)
    (hfree : metBy (standing (judging ns stands) d c r) s b = none) {b' : Bytes} :
    standing (judging ns stands) (settingsLearn { judging ns stands with now := now } d b r).2 c r =
      some (s', b') ↔ s' = s ∧ b' = b ∧ StandsAs ns stands r b s := by
  rw [(hone.learn hrow hcells hopen hcell).standing_iff hrow (cells_insert hcells hopen hcell),
    hone.learn_disk hrow hopen hcell, if_pos hfree]
  constructor
  · rintro ⟨⟨t, hload⟩, -, hact⟩
    have hbytes := Option.some.inj ((AList.lookup_insert _).symm.trans hload)
    have hread := rowRead_rowBytes r now (ne_nil_of_open hopen)
    rw [hbytes, rowRead_rowBytes r t (ne_nil_of_open hact.1)] at hread
    obtain ⟨-, -, rfl⟩ := SettingRow.mk.inj (Option.some.inj hread)
    obtain rfl := Except.ok.inj (hact.1.symm.trans hopen)
    exact ⟨rfl, rfl, hact⟩
  · rintro ⟨rfl, rfl, hact⟩
    exact ⟨⟨now, AList.lookup_insert _⟩, Set.mem_insert _ _, hact⟩

/-! ### One step -/

/-- **A setting learned keeps what is read the greatest, exactly if it meets.** -/
theorem OneRow.learn_reads (hone : OneRow r row L x.disk) (hopen : settingOpen ns.verify b = .ok s)
    (hcell : settingCell ns.hash s = some c) (hreads : ReadsGreatest ns c r L x) :
    ReadsGreatest ns c r (insert b L) (revokeStep ns r x (.learn b now)) ↔
      (RevokeEvent.learn b now).Meets ns c r L x := by
  have hopens : ∀ s', settingOpen ns.verify b = .ok s' → s' = s := fun s' h =>
    Except.ok.inj (h.symm.trans hopen)
  have hwritten : metBy (standing (judging ns x.stands) x.disk c r) s b = none → ∀ s' b',
      standing (judging ns x.stands) (revokeStep ns r x (.learn b now)).disk c r = some (s', b') ↔
        s' = s ∧ b' = b ∧ StandsAs ns x.stands r b s :=
    fun hfree _ _ => hone.learn_standing hrow hcells hopen hcell hfree
  have hstands : (revokeStep ns r x (.learn b now)).stands = x.stands := rfl
  unfold ReadsGreatest at hreads ⊢
  rw [hstands]
  cases hbefore : standing (judging ns x.stands) x.disk c r with
  | none =>
    rw [hbefore] at hreads hwritten
    refine iff_of_true ?_ (fun _ _ _ s' b' h => by rw [hbefore] at h; cases h)
    cases hafter : standing (judging ns x.stands)
      (revokeStep ns r x (.learn b now)).disk c r with
    | none =>
      rintro b' (rfl | hb') s' hact
      · obtain rfl := hopens s' hact.1
        cases hafter.symm.trans ((hwritten rfl s' b').2 ⟨rfl, rfl, hact⟩)
      · exact hreads b' hb' s' hact
    | some top =>
      obtain ⟨s', b'⟩ := top
      obtain ⟨rfl, rfl, hact⟩ := (hwritten rfl s' b').1 hafter
      refine ⟨Set.mem_insert _ _, hact, ?_⟩
      rintro b'' (rfl | hb'') s'' hact''
      · rw [hopens s'' hact''.1]
      · exact absurd hact'' (hreads b'' hb'' s'')
  | some top =>
    obtain ⟨s₀, b₀⟩ := top
    rw [hbefore] at hreads hwritten
    obtain ⟨hb₀, hact₀, hgreatest⟩ := hreads
    by_cases hfree : metBy (some (s₀, b₀)) s b = none
    · obtain ⟨hne, hlt⟩ := metBy_eq_none_iff.1 hfree
      cases hafter : standing (judging ns x.stands)
        (revokeStep ns r x (.learn b now)).disk c r with
      | none =>
        -- what was learned has fallen, and what it superseded stands
        have hfallen : ¬ StandsAs ns x.stands r b s := fun hact => by
          cases hafter.symm.trans ((hwritten hfree s b).2 ⟨rfl, rfl, hact⟩)
        refine iff_of_false (fun h => h b₀ (Set.mem_insert_of_mem _ hb₀) s₀ hact₀) ?_
        intro hmeets
        have hover := hmeets s hopen hfallen s₀ b₀ hbefore
        rw [supersedes_iff.2 hlt] at hover
        cases hover
      | some top =>
        obtain ⟨s', b'⟩ := top
        obtain ⟨rfl, rfl, hact⟩ := (hwritten hfree s' b').1 hafter
        refine iff_of_true ⟨Set.mem_insert _ _, hact, ?_⟩ ?_
        · rintro b'' (rfl | hb'') s'' hact''
          · rw [hopens s'' hact''.1]
          · exact (hgreatest b'' hb'' s'' hact'').trans hlt.le
        · intro s'' hopen'' hfallen
          exact absurd (hopens s'' hopen'' ▸ hact) hfallen
    · have hsame : (revokeStep ns r x (.learn b now)).disk = x.disk := by
        refine (hone.learn_disk hrow hopen hcell).trans ?_
        rw [hbefore, if_neg hfree]
      rw [hsame, hbefore]
      rw [metBy_eq_none_iff, not_and_or, not_not, not_lt] at hfree
      have hle : s.place ≤ s₀.place := by
        rcases hfree with rfl | hle
        · exact (hopens s₀ hact₀.1) ▸ le_rfl
        · exact hle
      refine iff_of_true ⟨Set.mem_insert_of_mem _ hb₀, hact₀, ?_⟩ ?_
      · rintro b'' (rfl | hb'') s'' hact''
        · exact (hopens s'' hact''.1) ▸ hle
        · exact hgreatest b'' hb'' s'' hact''
      · intro s'' hopen'' _ s' b' hstanding
        obtain ⟨rfl, rfl⟩ := Prod.mk.inj (Option.some.inj (hbefore.symm.trans hstanding))
        rw [hopens s'' hopen'', ← Bool.not_eq_true, supersedes_iff, not_lt]
        exact hle

/-- **Another judgement keeps it, exactly if it meets.** -/
theorem OneRow.judge_reads (hone : OneRow r row L x.disk)
    (hfalls : ∀ k rank act, stands' k rank act = true → x.stands k rank act = true)
    (hreads : ReadsGreatest ns c r L x) :
    ReadsGreatest ns c r L (revokeStep ns r x (.judge stands')) ↔
      (RevokeEvent.judge stands').Meets ns c r L x := by
  have hback : ∀ {b s}, StandsAs ns stands' r b s → StandsAs ns x.stands r b s := by
    rintro b s ⟨hopen, hact⟩
    obtain ⟨act, hhash, hstands⟩ := (Option.any_eq_true _ _).1 hact
    exact ⟨hopen, (Option.any_eq_true _ _).2 ⟨act, hhash, hfalls _ _ _ hstands⟩⟩
  show ReadsGreatest ns c r L ⟨x.disk, stands'⟩ ↔ _
  unfold ReadsGreatest at hreads ⊢
  dsimp only
  cases hbefore : standing (judging ns x.stands) x.disk c r with
  | none =>
    rw [hbefore] at hreads
    have hafter : standing (judging ns stands') x.disk c r = none := by
      refine Option.eq_none_iff_forall_ne_some.2 fun top htop => ?_
      cases hbefore.symm.trans (hone.standing_mono hrow hcells hfalls htop)
    rw [hafter]
    refine iff_of_true (fun b hb s hact => hreads b hb s (hback hact)) ?_
    intro s b hstanding
    cases hbefore.symm.trans hstanding
  | some top =>
    obtain ⟨s₀, b₀⟩ := top
    rw [hbefore] at hreads
    obtain ⟨hb₀, hact₀, hgreatest⟩ := hreads
    obtain ⟨hload, -, -⟩ := (hone.standing_iff hrow hcells).1 hbefore
    by_cases hact : StandsAs ns stands' r b₀ s₀
    · rw [(hone.standing_iff hrow hcells).2 ⟨hload, hb₀, hact⟩]
      refine iff_of_true ⟨hb₀, hact, fun b hb s h => hgreatest b hb s (hback h)⟩ ?_
      intro s b hstanding hfallen
      obtain ⟨rfl, rfl⟩ := Prod.mk.inj (Option.some.inj (hbefore.symm.trans hstanding))
      exact absurd hact hfallen
    · have hafter : standing (judging ns stands') x.disk c r = none := by
        refine Option.eq_none_iff_forall_ne_some.2 fun ⟨s, b⟩ htop => hact ?_
        have hsame := hone.standing_mono hrow hcells hfalls htop
        obtain ⟨rfl, rfl⟩ := Prod.mk.inj (Option.some.inj (hbefore.symm.trans hsame))
        exact ((hone.standing_iff hrow hcells).1 htop).2.2
      rw [hafter]
      constructor
      · intro h s b _ _ b' hb' s'
        exact h b' hb' s'
      · intro h b' hb' s'
        exact h s₀ b₀ hbefore hact b' hb' s'

end Row

/-! ## Runs -/

section Run

variable {ns : Settings} {c row : Bytes32} {r : SettingRank} {stands : Judgement}
  {events : List RevokeEvent}

theorem learnedIn_learn (events : List RevokeEvent) (b : Bytes) (now : UInt64) :
    learnedIn (events ++ [.learn b now]) = insert b (learnedIn events) := by
  ext b'
  constructor
  · rintro ⟨t, ht⟩
    rcases List.mem_append.1 ht with h | h
    · exact .inr ⟨t, h⟩
    · exact .inl (RevokeEvent.learn.inj (List.mem_singleton.1 h)).1
  · rintro (rfl | ⟨t, ht⟩)
    · exact ⟨now, List.mem_append_right _ (List.mem_singleton_self _)⟩
    · exact ⟨t, List.mem_append_left _ ht⟩

theorem learnedIn_judge (events : List RevokeEvent) (stands : Judgement) :
    learnedIn (events ++ [.judge stands]) = learnedIn events := by
  ext b'
  constructor
  · rintro ⟨t, ht⟩
    rcases List.mem_append.1 ht with h | h
    · exact ⟨t, h⟩
    · cases List.mem_singleton.1 h
  · rintro ⟨t, ht⟩
    exact ⟨t, List.mem_append_left _ ht⟩

theorem learnedIn_of_prefix_run {pre : List RevokeEvent} (h : pre <+: events) :
    learnedIn pre ⊆ learnedIn events :=
  fun _ ⟨t, ht⟩ => ⟨t, h.subset ht⟩

theorem revokeRun_append (ns : Settings) (r : SettingRank) (stands : Judgement)
    (pre : List RevokeEvent) (e : RevokeEvent) :
    revokeRun ns r stands (pre ++ [e]) = revokeStep ns r (revokeRun ns r stands pre) e :=
  List.foldl_append

theorem RevokeRun.prefix (h : RevokeRun ns c r stands events) {pre : List RevokeEvent}
    (hle : pre <+: events) : RevokeRun ns c r stands pre :=
  ⟨fun b hb => h.cells b (learnedIn_of_prefix_run hle hb),
    fun pre' stands' hle' => h.falls pre' stands' (hle'.trans hle)⟩

variable (hrow : settingRowOf ns.hash c r = some row)
include hrow

/-- Nothing is read of the empty slot. -/
theorem reads_nil (stands : Judgement) :
    ReadsGreatest ns c r (learnedIn []) (revokeRun ns r stands []) := by
  have hnone : standing (judging ns stands) ⟨∅, []⟩ c r = none := by
    refine Option.eq_none_iff_forall_ne_some.2 fun ⟨s, b⟩ htop => ?_
    have hrow' : settingRowOf (judging ns stands).hash c r = some row := hrow
    obtain ⟨held, t, hload, -⟩ := (standing_iff hrow').1 htop
    cases hload
  show ReadsGreatest ns c r (learnedIn []) ⟨⟨∅, []⟩, stands⟩
  unfold ReadsGreatest
  rw [hnone]
  intro b ⟨t, ht⟩
  cases ht

/-- Behind a run the slot holds one row at the most. -/
theorem RevokeRun.oneRow (h : RevokeRun ns c r stands events) :
    OneRow r row (learnedIn events) (revokeRun ns r stands events).disk := by
  induction events using List.reverseRecOn with
  | nil =>
    have hempty : learnedIn [] = ∅ := Set.eq_empty_of_forall_notMem fun b ⟨t, ht⟩ => by cases ht
    exact ⟨rfl, .inl ⟨rfl, hempty⟩, fun _ _ => rfl⟩
  | append_singleton pre e ih =>
    have hpre := h.prefix (List.prefix_append pre [e])
    rw [revokeRun_append]
    cases e with
    | learn b now =>
      obtain ⟨s, hopen, hcell⟩ := h.cells b
        (learnedIn_learn pre b now ▸ Set.mem_insert _ _)
      rw [learnedIn_learn]
      exact (ih hpre).learn hrow hpre.cells hopen hcell
    | judge stands' =>
      rw [learnedIn_judge]
      exact ih hpre

/-- **One step of a run reads the greatest behind it, exactly if it meets.** -/
theorem RevokeRun.step_reads (h : RevokeRun ns c r stands events) {pre : List RevokeEvent}
    {e : RevokeEvent} (hle : pre ++ [e] <+: events)
    (hreads : ReadsGreatest ns c r (learnedIn pre) (revokeRun ns r stands pre)) :
    ReadsGreatest ns c r (learnedIn (pre ++ [e])) (revokeRun ns r stands (pre ++ [e])) ↔
      e.Meets ns c r (learnedIn pre) (revokeRun ns r stands pre) := by
  have hpre := h.prefix ((List.prefix_append pre [e]).trans hle)
  rw [revokeRun_append]
  cases e with
  | learn b now =>
    obtain ⟨s, hopen, hcell⟩ := h.cells b
      (learnedIn_of_prefix_run hle (learnedIn_learn pre b now ▸ Set.mem_insert _ _))
    rw [learnedIn_learn]
    exact (hpre.oneRow hrow).learn_reads hrow hpre.cells hopen hcell hreads
  | judge stands' =>
    rw [learnedIn_judge]
    exact (hpre.oneRow hrow).judge_reads hrow hpre.cells (h.falls pre stands' hle) hreads

/-- **A run reads the greatest in every state, exactly if every step meets.** -/
theorem RevokeRun.reads_iff (h : RevokeRun ns c r stands events) :
    (∀ pre, pre <+: events →
      ReadsGreatest ns c r (learnedIn pre) (revokeRun ns r stands pre)) ↔
    EachMeets ns c r stands events := by
  constructor
  · intro hreads pre e hle
    exact (h.step_reads hrow hle (hreads pre ((List.prefix_append pre [e]).trans hle))).1
      (hreads (pre ++ [e]) hle)
  · intro hmeets pre hpre
    refine prefix_induction (P := fun pre =>
      ReadsGreatest ns c r (learnedIn pre) (revokeRun ns r stands pre)) ?_ ?_
    · exact reads_nil hrow stands
    · intro pre' e hle hreads
      have hle' := hle.trans hpre
      exact (h.step_reads hrow hle' hreads).2 (hmeets pre' e hle')

end Run

/-! ## What is read of the cell -/

section Agree

variable {ns : Settings} {c row : Bytes32} {r : SettingRank} {L : Set Bytes} {x y : RevokeState}
  {n : CellName}

/-- One row is all that is in force of its cell. -/
theorem OneRow.inForce_iff (hone : OneRow r row L x.disk)
    (hinj : ns.hash.InjOn {i | ∃ r', i = settingRowInput c r'})
    (hrow : settingRowOf ns.hash c r = some row) {r' : SettingRank} {s : Setting} :
    inForce (judging ns x.stands) x.disk c = some (r', s) ↔
      r' = r ∧ s.set = true ∧ ∃ b, standing (judging ns x.stands) x.disk c r = some (s, b) := by
  have hother : ∀ {r' s b}, standing (judging ns x.stands) x.disk c r' = some (s, b) → r' = r := by
    intro r' s b hstanding
    cases hrow' : settingRowOf (judging ns x.stands).hash c r' with
    | none =>
      unfold standing at hstanding
      rw [hrow'] at hstanding
      cases hstanding
    | some row' =>
      obtain ⟨held, t, hload, -⟩ := (Node.standing_iff hrow').1 hstanding
      by_contra hne
      refine hne (settingRowInput_inj (hinj _ ⟨r', rfl⟩ _ ⟨r, rfl⟩ row ?_ hrow)).2
      by_cases heq : row' = row
      · exact heq ▸ hrow'
      · cases (hone.alone row' heq).symm.trans hload
  rw [Node.inForce_iff]
  constructor
  · rintro ⟨hset, ⟨b, hstanding⟩, -⟩
    obtain rfl := hother hstanding
    exact ⟨rfl, hset, b, hstanding⟩
  · rintro ⟨rfl, hset, hstanding⟩
    refine ⟨hset, hstanding, fun r'' s' b hlt hstanding' => ?_⟩
    obtain rfl := hother hstanding'
    exact absurd hlt (by cases r'' <;> decide)

/-- Two states that read the greatest of one set under one judgement read one place. -/
theorem ReadsGreatest.agree (hx : ReadsGreatest ns c r L x) (hy : ReadsGreatest ns c r L y)
    (hsame : x.stands = y.stands) {s : Setting}
    (h : standing (judging ns x.stands) x.disk c r = some (s, b)) :
    ∃ s' b', standing (judging ns y.stands) y.disk c r = some (s', b') ∧ s.place = s'.place := by
  unfold ReadsGreatest at hx hy
  rw [h] at hx
  obtain ⟨hb, hact, hgreatest⟩ := hx
  rw [hsame] at hact hgreatest
  cases hafter : standing (judging ns y.stands) y.disk c r with
  | none =>
    rw [hafter] at hy
    exact absurd hact (hy b hb s)
  | some top =>
    obtain ⟨s', b'⟩ := top
    rw [hafter] at hy
    exact ⟨s', b', rfl, le_antisymm (hy.2.2 b hb s hact) (hgreatest b' hy.1 s' hy.2.1)⟩

/-- What is in force of the cell reads alike in both. -/
theorem OneRow.read_eq {α : Type*} (hx : OneRow r row L x.disk) (hy : OneRow r row L y.disk)
    (hinj : ns.hash.InjOn {i | ∃ r', i = settingRowInput c r'})
    (hrow : settingRowOf ns.hash c r = some row) (hreads : ReadsGreatest ns c r L x)
    (hreads' : ReadsGreatest ns c r L y) (hsame : x.stands = y.stands)
    {f : SettingRank × Setting → α}
    (hf : ∀ r s s', s.place = s'.place → f (r, s) = f (r, s')) :
    (inForce (judging ns x.stands) x.disk c).map f =
      (inForce (judging ns y.stands) y.disk c).map f := by
  have hhalf : ∀ {x y : RevokeState}, OneRow r row L x.disk → OneRow r row L y.disk →
      ReadsGreatest ns c r L x → ReadsGreatest ns c r L y → x.stands = y.stands →
      ∀ a, (inForce (judging ns x.stands) x.disk c).map f = some a →
        (inForce (judging ns y.stands) y.disk c).map f = some a := by
    intro x y hx hy hreads hreads' hsame a ha
    obtain ⟨⟨r', s⟩, hforce, rfl⟩ := Option.map_eq_some_iff.1 ha
    obtain ⟨rfl, hset, b, hstanding⟩ := (hx.inForce_iff hinj hrow).1 hforce
    obtain ⟨s', b', hstanding', hplace⟩ := hreads.agree hreads' hsame hstanding
    have hset' : s'.set = true := (place_inj hplace).2.2.1 ▸ hset
    rw [(hy.inForce_iff hinj hrow).2 ⟨rfl, hset', b', hstanding'⟩, Option.map_some,
      hf r' s s' hplace]
  exact Option.ext fun a => ⟨hhalf hx hy hreads hreads' hsame a,
    hhalf hy hx hreads' hreads hsame.symm a⟩

end Agree

/-- **What is read behind revocations.**  In every state of a run the setting standing is the
greatest of those learned whose acts stand, exactly if every step meets, and two runs of the
same settings, to the same judgement, whose steps all meet end reading alike. -/
theorem revoked_reads {ns : Settings} {H : Bytes → RecId} (hhash : ns.hash = answering H)
    {c : Bytes32} (hinj : ns.hash.InjOn {i | ∃ r', i = settingRowInput c r'}) {r : SettingRank}
    {stands : Judgement} {events : List RevokeEvent} (h : RevokeRun ns c r stands events) :
    ((∀ pre, pre <+: events →
      ReadsGreatest ns c r (learnedIn pre) (revokeRun ns r stands pre)) ↔
        EachMeets ns c r stands events) ∧
    ∀ stands' events', RevokeRun ns c r stands' events' → learnedIn events' = learnedIn events →
      (revokeRun ns r stands' events').stands = (revokeRun ns r stands events).stands →
      EachMeets ns c r stands events → EachMeets ns c r stands' events' →
      ∀ n, cellOf ns.hash n = some c →
        (revokeRun ns r stands' events').get ns n = (revokeRun ns r stands events).get ns n ∧
        (revokeRun ns r stands' events').standingOf ns n =
          (revokeRun ns r stands events).standingOf ns n := by
  obtain ⟨row, hrow⟩ := settingRowOf_answers hhash c r
  refine ⟨h.reads_iff hrow, fun stands' events' h' hlearned hsame hmeets hmeets' n hcell => ?_⟩
  have hreads := (h.reads_iff hrow).2 hmeets events List.prefix_rfl
  have hreads' := (h'.reads_iff hrow).2 hmeets' events' List.prefix_rfl
  have hone := h.oneRow hrow
  have hone' := h'.oneRow hrow
  rw [hlearned] at hreads' hone'
  have hcell' : ∀ stands, cellOf (judging ns stands).hash n = some c := fun _ => hcell
  constructor
  · unfold RevokeState.get settingsGet
    rw [hcell', hcell']
    exact hone'.read_eq hone hinj hrow hreads' hreads hsame fun r s s' hplace =>
      congrArg (·, r) (place_inj hplace).2.2.2
  · unfold RevokeState.standingOf settingsStandingOf
    rw [hcell', hcell']
    exact hone'.read_eq hone hinj hrow hreads' hreads hsame fun r s s' hplace =>
      Prod.ext (place_inj hplace).1 (place_inj hplace).2.1

/-- What the setter 8 signed has fallen. -/
def fallen : Judgement := fun k _ _ => k != 8

/-- The older setting, the later one that supersedes it, and then its fall. -/
def fallBehind : List RevokeEvent :=
  [.learn (settingOf 7 1 true [118]) 0, .learn (settingOf 8 2 true [119]) 0, .judge fallen]

/-- The same with the older setting behind the fall. -/
def fallBefore : List RevokeEvent :=
  [.learn (settingOf 8 2 true [119]) 0, .judge fallen, .learn (settingOf 7 1 true [118]) 0]

/-- The cell of both. -/
def fallCell : Bytes32 := (cellOf tailHash cellOfSetting).getD 0

/-- The settings of both are of that cell. -/
theorem fall_cells (hb : b ∈ [settingOf 7 1 true [118], settingOf 8 2 true [119]]) :
    ∃ s, settingOpen acceptingSign b = .ok s ∧ settingCell tailHash s = some fallCell := by
  have hall : ∀ b ∈ [settingOf 7 1 true [118], settingOf 8 2 true [119]],
      ((settingOpen acceptingSign b).toOption.bind fun s => settingCell tailHash s) =
        some fallCell := by
    decide +kernel
  have hopen := hall b hb
  cases hs : settingOpen acceptingSign b with
  | error e => rw [hs] at hopen; cases hopen
  | ok s => exact ⟨s, rfl, by rw [hs] at hopen; exact hopen⟩

theorem learnedIn_fallBefore : b ∈ learnedIn fallBefore ↔
    b ∈ [settingOf 7 1 true [118], settingOf 8 2 true [119]] := by
  rw [show fallBefore = ([.learn (settingOf 8 2 true [119]) 0] ++ [.judge fallen]) ++
    [.learn (settingOf 7 1 true [118]) 0] from rfl, learnedIn_learn, learnedIn_judge,
    ← List.nil_append [RevokeEvent.learn _ _], learnedIn_learn]
  simp [learnedIn]

theorem learnedIn_fallBehind : b ∈ learnedIn fallBehind ↔
    b ∈ [settingOf 7 1 true [118], settingOf 8 2 true [119]] := by
  rw [show fallBehind = (([] ++ [.learn (settingOf 7 1 true [118]) 0]) ++
    [.learn (settingOf 8 2 true [119]) 0]) ++ [.judge fallen] from rfl, learnedIn_judge,
    learnedIn_learn, learnedIn_learn]
  simp [learnedIn, or_comm]

/-- A run of the two acts is one, where all acts do what stands at each judgement. -/
theorem fall_run {events : List RevokeEvent}
    (hmem : ∀ b ∈ learnedIn events, b ∈ [settingOf 7 1 true [118], settingOf 8 2 true [119]])
    (hstand : ∀ n (hn : n < events.length) stands, events[n] = .judge stands →
      (revokeRun oneNode .admin (fun _ _ _ => true) (events.take n)).stands = fun _ _ _ => true) :
    RevokeRun oneNode fallCell .admin (fun _ _ _ => true) events := by
  refine ⟨fun b hb => fall_cells (hmem b hb), fun pre stands hle k rank act _ => ?_⟩
  have hall := forall_prefix (Q := fun pre e => ∀ stands, e = .judge stands →
    (revokeRun oneNode .admin (fun _ _ _ => true) pre).stands = fun _ _ _ => true) hstand
    pre _ hle stands rfl
  rw [hall]

theorem fallBefore_run : RevokeRun oneNode fallCell .admin (fun _ _ _ => true) fallBefore := by
  refine fall_run (fun b hb => learnedIn_fallBefore.1 hb) fun n hn stands he => ?_
  rcases n with - | - | - | n
  · cases he
  · rfl
  · cases he
  · exact absurd hn (by simp [fallBefore])

theorem fallBehind_run : RevokeRun oneNode fallCell .admin (fun _ _ _ => true) fallBehind := by
  refine fall_run (fun b hb => learnedIn_fallBehind.1 hb) fun n hn stands he => ?_
  rcases n with - | - | - | n
  · cases he
  · cases he
  · rfl
  · exact absurd hn (by simp [fallBehind])

theorem fall_setter {s : Setting} (hopen : settingOpen acceptingSign b = .ok s) :
    (b = settingOf 7 1 true [118] → s.setter = 7) ∧
      (b = settingOf 8 2 true [119] → s.setter = 8) := by
  have hall : (settingOpen acceptingSign (settingOf 7 1 true [118])).toOption.map Setting.setter =
      some 7 ∧ (settingOpen acceptingSign (settingOf 8 2 true [119])).toOption.map Setting.setter =
        some 8 := by
    decide +kernel
  constructor
  · rintro rfl
    rw [hopen] at hall
    exact Option.some.inj hall.1
  · rintro rfl
    rw [hopen] at hall
    exact Option.some.inj hall.2

/-- Every step of the second order meets. -/
theorem fallBefore_meets : EachMeets oneNode fallCell .admin (fun _ _ _ => true) fallBefore := by
  refine forall_prefix fun n hn => ?_
  rcases n with - | - | - | n
  · intro s hopen hfallen
    exact absurd ⟨hopen, rfl⟩ hfallen
  · intro s b _ _ b' hb' s' hact
    have hb : b' = settingOf 8 2 true [119] := by
      obtain ⟨t, ht⟩ := hb'
      exact (RevokeEvent.learn.inj (List.mem_singleton.1 ht)).1
    have hstands : (s'.setter != 8) = true := hact.2
    rw [(fall_setter hact.1).2 hb] at hstands
    cases hstands
  · intro s hopen hfallen
    refine absurd ⟨hopen, ?_⟩ hfallen
    show (s.setter != 8) = true
    rw [(fall_setter hopen).1 rfl]
    rfl
  · exact absurd hn (by simp [fallBefore])

/-- The second order reads the greatest all along. -/
theorem revoked_reads_before :
    RevokeRun oneNode fallCell .admin (fun _ _ _ => true) fallBefore ∧
    ∀ pre, pre <+: fallBefore → ReadsGreatest oneNode fallCell .admin (learnedIn pre)
      (revokeRun oneNode .admin (fun _ _ _ => true) pre) := by
  have hinj : oneNode.hash.InjOn {i | ∃ r', i = settingRowInput fallCell r'} := by
    rintro x ⟨r, rfl⟩ y ⟨r', rfl⟩ d hx hy
    have hall : ∀ r ∈ [SettingRank.host, .admin, .root], ∀ r' ∈ [SettingRank.host, .admin, .root],
        tailHash.hash (settingRowInput fallCell r) = tailHash.hash (settingRowInput fallCell r') →
          r = r' := by
      decide +kernel
    rw [hall r (by cases r <;> decide) r' (by cases r' <;> decide) (hx.trans hy.symm)]
  exact ⟨fallBefore_run, (revoked_reads rfl hinj fallBefore_run).1.2 fallBefore_meets⟩

/-- **Two orders of one revocation differ**: the setting that falls behind the one it
replaced leaves the rank empty, and in front of it leaves it to the older. -/
theorem revoked_orders_differ :
    RevokeRun oneNode fallCell .admin (fun _ _ _ => true) fallBehind ∧
    RevokeRun oneNode fallCell .admin (fun _ _ _ => true) fallBefore ∧
    learnedIn fallBehind = learnedIn fallBefore ∧
    (revokeRun oneNode .admin (fun _ _ _ => true) fallBehind).stands = fallen ∧
    (revokeRun oneNode .admin (fun _ _ _ => true) fallBefore).stands = fallen ∧
    (revokeRun oneNode .admin (fun _ _ _ => true) fallBehind).get oneNode cellOfSetting = none ∧
    (revokeRun oneNode .admin (fun _ _ _ => true) fallBefore).get oneNode cellOfSetting =
      some ([118], .admin) := by
  refine ⟨fallBehind_run, fallBefore_run,
    Set.ext fun _ => learnedIn_fallBehind.trans learnedIn_fallBefore.symm, rfl, rfl, ?_, ?_⟩
  · decide +kernel
  · decide +kernel

end Node
end Fuzznet
