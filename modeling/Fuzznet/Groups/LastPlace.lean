/-
# The last place of a log

A group counts its acts in 32 bits.  The act taken at place 2^32 - 1 leaves a count of 0
(`last_place_taken`), and behind it nothing is taken any more, not even a fork of a lower hash
(`frozen`): a host that filled the log before it was offered the fork keeps the one, a host
that was offered the fork first the other (`last_place_apart`).
-/

import Fuzznet.Groups.Converge

namespace Fuzznet
namespace Groups

open Wire Lib

section LastPlace

variable {ops : GroupLogOps} {B : Set Bytes} {rows : GroupRows} {log : Log} {g g' : Group}
variable {a : GroupAct} {h id : Bytes32} {x : Bytes}

/-- **The act at the last place** is taken, and leaves a group of no acts. -/
theorem last_place_taken (hanswers : ∀ i, ops.hash.hash i ≠ none)
    (hact : actOf ops x = some (a, h)) (hl : HoldsLog ops.hash B rows a.group (some log))
    (hkind : a.kind ≠ .create) (hlast : log.length + 1 = 2 ^ 32)
    (happ : groupApply (logGroup log) a h = (.ok (), g')) :
    answer ops rows x = .ok .taken ∧ storedGroup (offered ops rows x) a.group = some g' ∧
      g'.seq = 0 := by
  have hl' := hl
  obtain ⟨g, hh⟩ := hl'
  rw [← hh.accepted.eq] at happ
  obtain ⟨-, hid, hseq, haccepted⟩ := group_of_applied hkind hh.accepted happ
  have hplaces := haccepted.places
  rw [List.length_append, List.length_singleton, hlast, Nat.mod_self] at hplaces
  have hget : logGet ⟨rows, []⟩ a.group = (.ok g, ⟨rows, []⟩) := by
    unfold logGet
    rw [show (⟨rows, []⟩ : GroupDisk).ask (.group a.group) =
      (rows.lookup (.group a.group), ⟨rows, []⟩) from rfl, hh.group_row]
    dsimp only
    rw [groupDecode_encode hh.accepted.fits]
  obtain ⟨z, hz⟩ := Option.ne_none_iff_exists'.1
    (hanswers (Session.bytes32 g'.id ++ putBe 4 a.seq))
  have hoffer : groupLogOffer ops ⟨rows, []⟩ x = answered (.ok .taken,
      ⟨(rows.insert (.act z) x).insert (.group g'.id) (groupEncode g'), []⟩) := by
    unfold groupLogOffer
    rw [hact]
    dsimp only
    rw [if_neg hkind, hget]
    dsimp only
    rw [if_neg (by omega), if_pos hseq, takeNext_answered hz happ]
  refine ⟨by unfold answer; rw [hoffer]; rfl, ?_, hplaces.2⟩
  unfold offered offerCall
  rw [hoffer, ← hid]
  exact storedGroup_insert haccepted.fits

/-- **A group of no acts takes none**: what is offered to it writes nothing. -/
theorem frozen (hanswers : ∀ i, ops.hash.hash i ≠ none)
    (hact : actOf ops x = some (a, h)) (hid : actGroup a h = id)
    (hstored : storedGroup rows id = some g) (hseq : g.seq = 0) : offered ops rows x = rows := by
  have hget : logGet ⟨rows, []⟩ id = (.ok g, ⟨rows, []⟩) := by
    obtain ⟨bytes, hrow, hdecode⟩ := Option.bind_eq_some_iff.1 hstored
    unfold logGet
    rw [show (⟨rows, []⟩ : GroupDisk).ask (.group id) =
      (rows.lookup (.group id), ⟨rows, []⟩) from rfl, hrow]
    dsimp only
    rw [hdecode]
  have hquiet : answer ops rows x ≠ .ok .taken ∧ answer ops rows x ≠ .ok .replaced := by
    unfold answer groupLogOffer
    rw [hact]
    dsimp only
    by_cases hkind : a.kind = .create
    · rw [if_pos hkind, show h = id from (if_pos hkind).symm.trans hid, hget]
      exact ⟨by simp [answered], by simp [answered]⟩
    rw [if_neg hkind, show a.group = id from (if_neg hkind).symm.trans hid, hget]
    dsimp only
    by_cases hgap : g.seq < a.seq
    · rw [if_pos hgap]
      exact ⟨by simp [answered], by simp [answered]⟩
    rw [if_neg hgap, if_pos (by omega)]
    have happ : groupApply g a h = (.error .notNext, g) := by
      unfold groupApply
      rw [if_neg hkind, if_pos (.inl hseq)]
    unfold takeNext
    rw [happ]
    exact ⟨by simp [answered], by simp [answered]⟩
  exact offered_rows hanswers hquiet.1 hquiet.2

end LastPlace

/-! ## A log filled -/

/-- The acts of a log that turns the backfill off and on again. -/
def chainAct (i : ℕ) : GroupAct :=
  if i = 0 then createAct
  else { plainAct .set i 11 (BitVec.ofNat 256 (i + 10)) 0 1 with
    setting := settingBackfill, value := (i + 1) % 2, sig := BitVec.ofNat 512 (i + 11) }

variable {i : ℕ} {n : ℕ}

theorem chainAct_of_pos (hpos : 0 < i) : chainAct i =
    { plainAct .set i 11 (BitVec.ofNat 256 (i + 10)) 0 1 with
      setting := settingBackfill, value := (i + 1) % 2, sig := BitVec.ofNat 512 (i + 11) } :=
  if_neg hpos.ne'

/-- The group of its first `n` acts. -/
def chainGroup (n : ℕ) : Group where
  id := 11
  seq := n % 2 ^ 32
  head := BitVec.ofNat 256 (n + 10)
  epoch := 1
  backfill := n % 2
  members := [1]
  admins := [1]
  proposals := []
  hosts := [⟨1, 1, 0, 1, 0, 1⟩]
  commits := fun _ => ⟨0, 0⟩

/-- Its first `n` acts. -/
def chainLog (n : ℕ) : Log := (List.range n).map fun i => (chainAct i, BitVec.ofNat 256 (i + 11))

theorem length_chainLog (n : ℕ) : (chainLog n).length = n := by
  rw [chainLog, List.length_map, List.length_range]

theorem chainLog_succ (n : ℕ) :
    chainLog (n + 1) = chainLog n ++ [(chainAct n, BitVec.ofNat 256 (n + 11))] := by
  rw [chainLog, List.range_succ, List.map_append, List.map_singleton]
  rfl

/-- Each act of the chain is taken behind those before it. -/
theorem apply_chain (hpos : 0 < n) (hn : n < 2 ^ 32) :
    groupApply (chainGroup n) (chainAct n) (BitVec.ofNat 256 (n + 11)) =
      (.ok (), chainGroup (n + 1)) := by
  have hseq : n % 2 ^ 32 = n := Nat.mod_eq_of_lt hn
  have hvalue : ¬ 1 < (n + 1) % 2 := by omega
  have hmoot : ¬ n % 2 = (n + 1) % 2 := by omega
  rw [chainAct_of_pos hpos]
  unfold groupApply judge chainGroup plainAct plainDevice
  dsimp only
  rw [if_neg (by decide), hseq, if_neg (by simp [hpos.ne'])]
  rw [if_neg (by simp), if_neg (by simp [settingBackfill, hvalue]), if_neg hmoot]

theorem logGroup_chain (hpos : 0 < n) (hn : n ≤ 2 ^ 32) : logGroup (chainLog n) = chainGroup n := by
  induction n with
  | zero => exact absurd hpos (lt_irrefl 0)
  | succ n ih =>
    rw [chainLog_succ, logGroup_snoc]
    rcases Nat.eq_zero_or_pos n with rfl | hn'
    · show (groupApply blank createAct 11).2 = chainGroup 1
      decide
    · rw [ih hn' (by omega), apply_chain hn' (by omega)]

theorem actOf_chain (hi : i < 2 ^ 32) :
    actOf plainOps (bytesOf (chainAct i)) = some (chainAct i, BitVec.ofNat 256 (i + 11)) := by
  rcases Nat.eq_zero_or_pos i with rfl | hpos
  · exact actOf_create
  rw [chainAct_of_pos hpos]
  exact actOf_plain rfl rfl rfl (show i < 256 ^ 4 by omega) (show (i + 1) % 2 < 256 ^ 8 by omega)
    rfl (by omega)

/-! ## Two hosts apart -/

/-- The chain's acts, as they are offered. -/
def chainBytes (n : ℕ) : List Bytes := (List.range n).map fun i => bytesOf (chainAct i)

/-- A log of every place filled, and a fork of its second act. -/
def chainAndFork : Set Bytes := {x | x = bytesOf forkAct ∨ ∃ i < 2 ^ 32, x = bytesOf (chainAct i)}

/-- The fork offered last, and offered second. -/
def forkLast (n : ℕ) : List Bytes := chainBytes (n + 1) ++ [bytesOf forkAct]

def forkSecond (n : ℕ) : List Bytes :=
  bytesOf createAct :: bytesOf forkAct ::
    (List.range n).map fun i => bytesOf (chainAct (i + 1))

theorem mem_forkLast {x : Bytes} : x ∈ forkLast n ↔
    x = bytesOf forkAct ∨ ∃ i < n + 1, x = bytesOf (chainAct i) := by
  rw [forkLast, List.mem_append, List.mem_singleton, or_comm, chainBytes, List.mem_map]
  refine or_congr_right (exists_congr fun i => ?_)
  rw [List.mem_range, eq_comm (a := x)]

theorem mem_forkSecond {x : Bytes} : x ∈ forkSecond n ↔
    x = bytesOf forkAct ∨ ∃ i < n + 1, x = bytesOf (chainAct i) := by
  rw [forkSecond, List.mem_cons, List.mem_cons, List.mem_map]
  constructor
  · rintro (rfl | rfl | ⟨i, hi, rfl⟩)
    · exact .inr ⟨0, Nat.succ_pos n, rfl⟩
    · exact .inl rfl
    · exact .inr ⟨i + 1, Nat.succ_lt_succ (List.mem_range.1 hi), rfl⟩
  · rintro (rfl | ⟨i, hi, rfl⟩)
    · exact .inr (.inl rfl)
    · cases i with
      | zero => exact .inl rfl
      | succ i => exact .inr (.inr ⟨i, List.mem_range.2 (Nat.lt_of_succ_lt_succ hi), rfl⟩)

theorem group_chain (i : ℕ) : actGroup (chainAct i) (BitVec.ofNat 256 (i + 11)) = 11 := by
  rcases Nat.eq_zero_or_pos i with rfl | hpos
  · rfl
  · rw [chainAct_of_pos hpos]
    rfl

theorem kind_chain (hpos : 0 < i) : (chainAct i).kind ≠ .create := by
  rw [chainAct_of_pos hpos]
  simp [plainAct]

theorem seq_chain (i : ℕ) : (chainAct i).seq = i := by
  rcases Nat.eq_zero_or_pos i with rfl | hpos
  · rfl
  · rw [chainAct_of_pos hpos]
    rfl

theorem distinct_chain : Distinct lastWord chainAndFork := by
  refine distinct_lastWord (g := 11) ?_ ?_
  · rintro b (rfl | ⟨i, hi, rfl⟩)
    · exact (hash_of_actOf actOf_fork).2
    · rw [(hash_of_actOf (actOf_chain hi)).2, group_chain]
  · have hne : ∀ i < 2 ^ 32, (5 : Bytes32) ≠ BitVec.ofNat 256 (i + 11) := fun i hi heq => by
      have hnat := congrArg BitVec.toNat heq
      rw [BitVec.toNat_ofNat] at hnat
      have hfive : (5 : Bytes32).toNat = 5 := rfl
      omega
    rintro x (rfl | ⟨i, hi, rfl⟩) y (rfl | ⟨j, hj, rfl⟩) d hx hy
    · rfl
    · rw [(hash_of_actOf actOf_fork).1] at hx
      rw [(hash_of_actOf (actOf_chain hj)).1] at hy
      exact absurd (Option.some.inj (hx.trans hy.symm)) (hne j hj)
    · rw [(hash_of_actOf actOf_fork).1] at hy
      rw [(hash_of_actOf (actOf_chain hi)).1] at hx
      exact absurd (Option.some.inj (hy.trans hx.symm)) (hne i hi)
    · rw [(hash_of_actOf (actOf_chain hi)).1] at hx
      rw [(hash_of_actOf (actOf_chain hj)).1] at hy
      have hnat := congrArg BitVec.toNat (Option.some.inj (hx.trans hy.symm))
      rw [BitVec.toNat_ofNat, BitVec.toNat_ofNat] at hnat
      obtain rfl : i = j := by omega
      rfl

/-- The chain offered in order is held, up to the last place. -/
theorem holds_chain (hn : n < 2 ^ 32) :
    HoldsLog lastWord chainAndFork ((chainBytes n).foldl (offered plainOps) ∅) 11
      (asLog (chainLog n)) := by
  induction n with
  | zero => exact AList.lookup_empty _
  | succ n ih =>
    have hl := ih (by omega)
    have hmem : bytesOf (chainAct n) ∈ chainAndFork := .inr ⟨n, by omega, rfl⟩
    rw [chainBytes, List.range_succ, List.map_append, List.map_singleton, List.foldl_append,
      List.foldl_cons, List.foldl_nil]
    rw [← group_chain n] at hl ⊢
    obtain ⟨-, hheld, -⟩ := offer_answered distinct_chain plainOps_answers hmem
      (actOf_chain (by omega)) hl fun hkind log hlog hseq => by
        rcases Nat.eq_zero_or_pos n with rfl | hpos
        · exact absurd rfl hkind
        rw [asLog_of_ne (List.ne_nil_of_length_pos (by rw [length_chainLog]; exact hpos)),
          Option.mem_some_iff] at hlog
        rw [hseq, ← hlog, length_chainLog]
        omega
    have hstep : (offerLog (asLog (chainLog n)) (chainAct n) (BitVec.ofNat 256 (n + 11))).2 =
        asLog (chainLog (n + 1)) := by
      rcases Nat.eq_zero_or_pos n with rfl | hpos
      · exact pair_logs.1
      have hne : chainLog n ≠ [] :=
        List.ne_nil_of_length_pos (by rw [length_chainLog]; exact hpos)
      rw [asLog_of_ne hne, chainLog_succ, asLog_of_ne (by simp),
        offerLog_head (kind_chain hpos) (by rw [length_chainLog, seq_chain])
          ((logGroup_chain hpos (by omega)).symm ▸ apply_chain hpos (by omega))]
    rw [← hstep]
    exact hheld

/-- A pass of offers that write nothing leaves the store. -/
theorem foldl_offered_same {ops : GroupLogOps} {rows : GroupRows} {pass : List Bytes}
    (h : ∀ x ∈ pass, offered ops rows x = rows) : pass.foldl (offered ops) rows = rows := by
  refine foldl_induction (P := fun rows' => rows' = rows) (fun pre x hle hrows => ?_) rfl
  rw [hrows]
  exact h x (hle.subset (List.mem_append_right _ (List.mem_singleton_self x)))

/-- The chain filled to its last place leaves a group of no acts, and its store stays. -/
theorem chain_filled (hn : n + 1 = 2 ^ 32) :
    ∃ rows, (chainBytes (n + 1)).foldl (offered plainOps) ∅ = rows ∧
      storedGroup rows 11 = some (chainGroup (n + 1)) ∧
      ∀ x ∈ chainAndFork, offered plainOps rows x = rows := by
  have hpos : 0 < n := by omega
  have hne : chainLog n ≠ [] := List.ne_nil_of_length_pos (by rw [length_chainLog]; exact hpos)
  have hl := holds_chain (n := n) (by omega)
  have hgroup : (chainAct n).group = 11 :=
    (if_neg (kind_chain hpos)).symm.trans (group_chain n)
  rw [asLog_of_ne hne, ← hgroup] at hl
  obtain ⟨-, hstored, hseq⟩ := last_place_taken plainOps_answers (actOf_chain (by omega)) hl
    (kind_chain hpos) (by rw [length_chainLog]; exact hn)
    ((logGroup_chain hpos (by omega)).symm ▸ apply_chain hpos (by omega))
  rw [hgroup] at hstored
  refine ⟨_, rfl, ?_, ?_⟩
  · rw [chainBytes, List.range_succ, List.map_append, List.map_singleton, List.foldl_append,
      List.foldl_cons, List.foldl_nil]
    exact hstored
  · rw [chainBytes, List.range_succ, List.map_append, List.map_singleton, List.foldl_append,
      List.foldl_cons, List.foldl_nil]
    rintro x (rfl | ⟨i, hi, rfl⟩)
    · exact frozen plainOps_answers actOf_fork rfl hstored hseq
    · exact frozen plainOps_answers (actOf_chain hi) (group_chain i) hstored hseq

/-- The log of the fork taken second. -/
def forkLog : Log := [(createAct, 11), (forkAct, 5)]

/-- The fork is taken behind the `create`, and behind the fork no act the chain begins with. -/
theorem fork_logs : (offerLog (some [(createAct, 11)]) forkAct 5).2 = some forkLog ∧
    (offerLog (some forkLog) forkAct 5).2 = some forkLog ∧
    (offerLog (some forkLog) (chainAct 0) (BitVec.ofNat 256 (0 + 11))).2 = some forkLog ∧
    (offerLog (some forkLog) (chainAct 1) (BitVec.ofNat 256 (1 + 11))).2 = some forkLog ∧
    (offerLog (some forkLog) (chainAct 2) (BitVec.ofNat 256 (2 + 11))).2 = some forkLog := by
  decide +kernel

/-- No act of the chain is taken behind it. -/
theorem offerLog_fork_chain :
    (offerLog (some forkLog) (chainAct i) (BitVec.ofNat 256 (i + 11))).2 = some forkLog := by
  match i with
  | 0 => exact fork_logs.2.2.1
  | 1 => exact fork_logs.2.2.2.1
  | 2 => exact fork_logs.2.2.2.2
  | i + 3 =>
    unfold offerLog
    rw [if_neg (kind_chain (by omega)), seq_chain]
    dsimp only
    rw [if_pos (by simp [forkLog])]

theorem fork_stays {rows : GroupRows}
    (hl : HoldsLog lastWord chainAndFork rows 11 (some forkLog)) :
    ∀ x ∈ chainAndFork, offered plainOps rows x = rows := by
  have hquiet : ∀ x ∈ chainAndFork, ∀ a h, actOf plainOps x = some (a, h) → actGroup a h = 11 →
      (offerLog (some forkLog) a h).2 = some forkLog → offered plainOps rows x = rows := by
    intro x hx a h hact hid hsame
    rw [← hid] at hl
    obtain ⟨hans, -⟩ := offer_answered distinct_chain plainOps_answers hx hact hl
      fun _ log hlog hseq => by
        rw [hseq, ← Option.mem_some_iff.1 hlog]
        decide
    obtain ⟨htaken, hreplaced⟩ := offerLog_quiet hsame
    rw [← hans] at htaken hreplaced
    exact offered_rows plainOps_answers htaken hreplaced
  rintro x (rfl | ⟨i, hi, rfl⟩)
  · exact hquiet _ (.inl rfl) _ _ actOf_fork rfl fork_logs.2.1
  · exact hquiet _ (.inr ⟨i, hi, rfl⟩) _ _ (actOf_chain hi) (group_chain i) offerLog_fork_chain

/-- The fork taken second is held, whatever is offered behind it. -/
theorem fork_second (n : ℕ) (hn : n + 1 = 2 ^ 32) :
    ∃ rows, (forkSecond n).foldl (offered plainOps) ∅ = rows ∧
      storedGroup rows 11 = some (logGroup forkLog) ∧
      ∀ x ∈ chainAndFork, offered plainOps rows x = rows := by
  have hcreate : HoldsLog lastWord chainAndFork (offered plainOps ∅ (bytesOf createAct)) 11
      (some [(createAct, 11)]) := by
    obtain ⟨-, hheld, -⟩ := offer_answered (l := none) distinct_chain plainOps_answers
      (.inr ⟨0, by omega, rfl⟩) actOf_create (AList.lookup_empty _) fun _ _ hlog => by cases hlog
    rw [pair_logs.1] at hheld
    exact hheld
  have hfork : HoldsLog lastWord chainAndFork
      (offered plainOps (offered plainOps ∅ (bytesOf createAct)) (bytesOf forkAct)) 11
      (some forkLog) := by
    obtain ⟨-, hheld, -⟩ := offer_answered distinct_chain plainOps_answers (.inl rfl) actOf_fork
      hcreate fun _ _ _ _ => by decide
    rw [fork_logs.1] at hheld
    exact hheld
  have hstay := fork_stays hfork
  refine ⟨_, rfl, ?_, ?_⟩
  all_goals
    rw [forkSecond, List.foldl_cons, List.foldl_cons, foldl_offered_same fun x hx => hstay x ?_]
  · exact hfork.stored
  · obtain ⟨i, hi, rfl⟩ := List.mem_map.1 hx
    exact .inr ⟨i + 1, by have := List.mem_range.1 hi; omega, rfl⟩
  · exact hstay
  · obtain ⟨i, hi, rfl⟩ := List.mem_map.1 hx
    exact .inr ⟨i + 1, by have := List.mem_range.1 hi; omega, rfl⟩

theorem quiet_second {pass : List Bytes} {rows : GroupRows}
    (hrows : pass.foldl (offered plainOps) ∅ = rows) (hpass : ∀ x ∈ pass, x ∈ chainAndFork)
    (hstay : ∀ x ∈ chainAndFork, offered plainOps rows x = rows) :
    hostRun plainOps (fun _ => pass) 1 = rows ∧ Quiet plainOps (fun _ => pass) 1 := by
  have hone : hostRun plainOps (fun _ => pass) 1 = rows := hrows
  refine ⟨hone, fun k => ?_⟩
  show AList.lookup k (pass.foldl (offered plainOps) (hostRun plainOps (fun _ => pass) 1)) = _
  rw [hone, foldl_offered_same fun x hx => hstay x (hpass x hx)]

/-- **Two hosts apart.**  Both offer the acts that fill a log and a fork of its second, and
both come to a quiet pass; the one offered the fork last keeps the chain, its group counting no
acts, and the one offered it second keeps the fork. -/
theorem last_place_apart :
    chainAndFork.Finite ∧ Distinct plainOps.hash chainAndFork ∧
    (∀ i, plainOps.hash.hash i ≠ none) ∧ (∀ x ∈ chainAndFork, actOf plainOps x ≠ none) ∧
    Covers chainAndFork (fun _ => forkLast (2 ^ 32 - 1)) ∧
    Covers chainAndFork (fun _ => forkSecond (2 ^ 32 - 1)) ∧
    Quiet plainOps (fun _ => forkLast (2 ^ 32 - 1)) 1 ∧
    Quiet plainOps (fun _ => forkSecond (2 ^ 32 - 1)) 1 ∧
    ¬SameLogs plainOps.hash (hostRun plainOps (fun _ => forkLast (2 ^ 32 - 1)) 1)
      (hostRun plainOps (fun _ => forkSecond (2 ^ 32 - 1)) 1) := by
  have hn : 2 ^ 32 - 1 + 1 = 2 ^ 32 := by omega
  generalize 2 ^ 32 - 1 = n at hn ⊢
  have hlast : ∀ x, x ∈ forkLast n ↔ x ∈ chainAndFork := fun x => by
    rw [mem_forkLast, hn]
    rfl
  have hsecond : ∀ x, x ∈ forkSecond n ↔ x ∈ chainAndFork := fun x => by
    rw [mem_forkSecond, hn]
    rfl
  obtain ⟨rows, hrows, hstored, hstay⟩ := chain_filled hn
  obtain ⟨rows', hrows', hstored', hstay'⟩ := fork_second n hn
  obtain ⟨hone, hquiet⟩ := quiet_second (show (forkLast n).foldl (offered plainOps) ∅ = rows by
    rw [forkLast, List.foldl_append, hrows, List.foldl_cons, List.foldl_nil]
    exact hstay _ (.inl rfl)) (fun x hx => (hlast x).1 hx) hstay
  obtain ⟨hone', hquiet'⟩ := quiet_second hrows' (fun x hx => (hsecond x).1 hx) hstay'
  refine ⟨?_, distinct_chain, plainOps_answers, ?_, fun _ => hlast, fun _ => hsecond, hquiet,
    hquiet', fun hsame => ?_⟩
  · exact (List.finite_toSet (forkLast n)).subset fun x hx => (hlast x).2 hx
  · rintro x (rfl | ⟨i, hi, rfl⟩)
    · rw [actOf_fork]
      exact Option.some_ne_none _
    · rw [actOf_chain hi]
      exact Option.some_ne_none _
  · have hgroups := (hsame 11).1
    rw [hone, hone', hstored, hstored', Option.some.injEq] at hgroups
    have hseq : (logGroup forkLog).seq = (n + 1) % 2 ^ 32 := congrArg Group.seq hgroups
    rw [hn, Nat.mod_self, show (logGroup forkLog).seq = 2 by decide] at hseq
    omega

end Groups
end Fuzznet
