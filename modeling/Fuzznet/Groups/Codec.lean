/-
# The group as the store keeps it

`group_encode` and `group_decode` of `node/group_log.c`: a group's tables, each behind its
count, and of the commitments the slots in use.  What is written of a group whose counts and
marks fit their fields is read back as that group (`groupDecode_encode`), and every group of
a log fits (`Accepted.fits`).
-/

import Fuzznet.Groups.Takeover
import Fuzznet.Lib.Reader

namespace Fuzznet
namespace Groups

open Wire Lib
open Session (bytes32 length_bytes32)

/-! ## Writing -/

/-- `GROUP_VERSION`. -/
def groupVersion : UInt8 := 2

/-- A table of `xs` behind its count in `k` bytes. -/
def putMany {α : Type} (k : ℕ) (encode : α → Bytes) (xs : List α) : Bytes :=
  putBe k xs.length ++ xs.flatMap encode

def proposalEncode (p : Proposal) : Bytes :=
  bytes32 p.hash ++ [p.kind] ++ bytes32 p.subject ++ putMany 1 bytes32 p.approvals

def hostEncode (h : GroupHost) : Bytes :=
  bytes32 h.owner ++ bytes32 h.key ++ putBe 4 h.seq ++ putBe 4 h.joinedEpoch ++
    putBe 4 h.keyedEpoch ++ putBe 4 h.backfilledTo

def commitEncode (c : EpochCommit) : Bytes := putBe 4 c.epoch ++ bytes32 c.commit

/-- A slot's commitment, where it is in use. -/
def inUse (commits : Fin 64 → EpochCommit) (s : Fin 64) : Option EpochCommit :=
  if (commits s).epoch ≠ 0 then some (commits s) else none

/-- The slots in use. -/
def usedCommits (g : Group) : List EpochCommit := (List.finRange 64).filterMap (inUse g.commits)

/-- `group_encode`. -/
def groupEncode (g : Group) : Bytes :=
  [groupVersion] ++ bytes32 g.id ++ putBe 4 g.seq ++ bytes32 g.head ++ putBe 4 g.epoch ++
    [UInt8.ofNat g.backfill] ++ putMany 2 bytes32 g.members ++ putMany 1 bytes32 g.admins ++
    putMany 1 proposalEncode g.proposals ++ putMany 2 hostEncode g.hosts ++
    putMany 1 commitEncode (usedCommits g)

/-! ## Reading -/

def readByte : Reader UInt8 UInt8 := (·.getD 0 0) <$> Reader.take 1

def readBe (n : ℕ) : Reader UInt8 ℕ := (getBe · 0 n) <$> Reader.take n

def readKey : Reader UInt8 Key := (BitVec.ofNat 256 ·) <$> readBe 32

/-- A table of at most `max` behind its count in `k` bytes. -/
def readMany {α : Type} (k max : ℕ) (r : Reader UInt8 α) : Reader UInt8 (List α) := do
  let n ← readBe k
  guard (n ≤ max)
  r.times n

def readProposal : Reader UInt8 Proposal := do
  let hash ← readKey
  let kind ← readByte
  let subject ← readKey
  let approvals ← readMany 1 adminsMax readKey
  pure ⟨hash, kind, subject, approvals⟩

def readHost : Reader UInt8 GroupHost := do
  let owner ← readKey
  let key ← readKey
  let seq ← readBe 4
  let joinedEpoch ← readBe 4
  let keyedEpoch ← readBe 4
  let backfilledTo ← readBe 4
  pure ⟨owner, key, seq, joinedEpoch, keyedEpoch, backfilledTo⟩

def readCommit : Reader UInt8 EpochCommit := do
  let epoch ← readBe 4
  let commit ← readKey
  pure ⟨epoch, commit⟩

/-- A commitment put in the slot of its epoch, which is of one and is free. -/
def placeCommit (commits : Fin 64 → EpochCommit) (c : EpochCommit) :
    Option (Fin 64 → EpochCommit) :=
  if c.epoch = 0 ∨ (commits (slot c.epoch)).epoch ≠ 0 then none
  else some (Function.update commits (slot c.epoch) c)

def readGroup : Reader UInt8 Group := do
  let version ← readByte
  guard (version = groupVersion)
  let id ← readKey
  let seq ← readBe 4
  let head ← readKey
  let epoch ← readBe 4
  let backfill ← readByte
  let members ← readMany 2 membersMax readKey
  let admins ← readMany 1 adminsMax readKey
  let proposals ← readMany 1 proposalsMax readProposal
  let hosts ← readMany 2 hostsMax readHost
  let used ← readMany 1 64 readCommit
  let commits ← StateT.lift (used.foldlM placeCommit blank.commits)
  pure {
    id := id
    seq := seq
    head := head
    epoch := epoch
    backfill := backfill.toNat
    members := members
    admins := admins
    proposals := proposals
    hosts := hosts
    commits := commits }

/-- `group_decode`. -/
def groupDecode (bs : Bytes) : Option Group := readGroup.all bs

/-! ## What is written is read -/

theorem reads_byte (b : UInt8) : Reads readByte [b] b :=
  (Reads.take (n := 1) (show [b].length = 1 from rfl)).map fun bs : Bytes => bs.getD 0 0

theorem reads_be {n v : ℕ} (hv : v < 256 ^ n) : Reads (readBe n) (putBe n v) v := by
  have h := (Reads.take (length_putBe n v)).map (getBe · 0 n)
  have hback := getBe_putBe_of_lt (n := n) [] hv
  rw [List.append_nil] at hback
  rwa [hback] at h

theorem reads_key (k : Key) : Reads readKey (bytes32 k) k := by
  have h := (reads_be (toNat_lt_bytes k)).map (BitVec.ofNat 256 ·)
  rwa [BitVec.ofNat_toNat, BitVec.setWidth_eq] at h

theorem reads_many {α : Type} {k max : ℕ} {r : Reader UInt8 α} {encode : α → Bytes} {xs : List α}
    (hlen : xs.length ≤ max) (hmax : max < 256 ^ k) (h : ∀ x ∈ xs, Reads r (encode x) x) :
    Reads (readMany k max r) (putMany k encode xs) xs := by
  refine (reads_be (hlen.trans_lt hmax)).bind ?_
  have hcheck : Reads (guard (xs.length ≤ max) : Reader UInt8 Unit) [] () := Reads.check hlen
  have hrest := @Reads.bind _ _ _ _ (fun _ => r.times xs.length) _ _ _ _ hcheck (Reads.times h)
  exact hrest

/-- What fits the fields of a stored host. -/
structure GroupHost.Fits (h : GroupHost) : Prop where
  seq : h.seq < 2 ^ 32
  joinedEpoch : h.joinedEpoch < 2 ^ 32
  keyedEpoch : h.keyedEpoch < 2 ^ 32
  backfilledTo : h.backfilledTo < 2 ^ 32

/-- What fits the fields of a stored group. -/
structure Fits (g : Group) : Prop where
  tables : Tables g
  seq : g.seq < 2 ^ 32
  epoch : g.epoch < 2 ^ 32
  backfill : g.backfill < 256
  hosts : ∀ h ∈ g.hosts, h.Fits
  slots : ∀ s, (g.commits s).epoch < 2 ^ 32 ∧
    ((g.commits s).epoch = 0 ∧ (g.commits s).commit = 0 ∨
      (g.commits s).epoch ≠ 0 ∧ slot (g.commits s).epoch = s)

theorem reads_proposal {p : Proposal} (h : p.approvals.length ≤ adminsMax) :
    Reads readProposal (proposalEncode p) p := by
  unfold readProposal proposalEncode
  simp only [List.append_assoc]
  refine (reads_key _).bind ((reads_byte _).bind ((reads_key _).bind ?_))
  exact (reads_many (k := 1) h (by decide) fun k _ => reads_key k).last

theorem reads_host {h : GroupHost} (hfits : h.Fits) : Reads readHost (hostEncode h) h := by
  unfold readHost hostEncode
  simp only [List.append_assoc]
  refine (reads_key _).bind ((reads_key _).bind ((reads_be hfits.seq).bind
    ((reads_be hfits.joinedEpoch).bind ((reads_be hfits.keyedEpoch).bind ?_))))
  exact (reads_be hfits.backfilledTo).last

theorem reads_commit {c : EpochCommit} (h : c.epoch < 2 ^ 32) :
    Reads readCommit (commitEncode c) c := by
  unfold readCommit commitEncode
  refine (reads_be h).bind ?_
  exact (reads_key c.commit).last

/-- The slots in use, written in their order, fill the slots they were in. -/
theorem foldlM_placeCommit {commits : Fin 64 → EpochCommit} {ss : List (Fin 64)}
    {acc : Fin 64 → EpochCommit} (hnodup : ss.Nodup)
    (hslots : ∀ s, (commits s).epoch ≠ 0 → slot (commits s).epoch = s)
    (hfree : ∀ s ∈ ss, (acc s).epoch = 0) :
    (ss.filterMap (inUse commits)).foldlM placeCommit acc =
      some fun s => if s ∈ ss ∧ (commits s).epoch ≠ 0 then commits s else acc s := by
  induction ss generalizing acc with
  | nil => simp
  | cons s ss ih =>
    rw [List.nodup_cons] at hnodup
    have hne : ∀ t ∈ ss, t ≠ s := fun t ht heq => hnodup.1 (heq ▸ ht)
    by_cases hused : (commits s).epoch ≠ 0
    · have hplace : placeCommit acc (commits s) = some (Function.update acc s (commits s)) := by
        unfold placeCommit
        rw [hslots s hused, if_neg]
        rw [not_or, not_not]
        exact ⟨hused, hfree s (List.mem_cons_self ..)⟩
      rw [List.filterMap_cons_some (show inUse commits s = some (commits s) from if_pos hused),
        List.foldlM_cons, hplace]
      show (ss.filterMap (inUse commits)).foldlM placeCommit (Function.update acc s (commits s)) = _
      rw [ih hnodup.2 fun t ht => by
        rw [Function.update_of_ne (hne t ht)]
        exact hfree t (List.mem_cons_of_mem s ht)]
      refine congrArg some (funext fun t => ?_)
      by_cases ht : t = s
      · subst ht
        rw [if_neg (fun hmem => hnodup.1 hmem.1), Function.update_self,
          if_pos ⟨List.mem_cons_self .., hused⟩]
      · rw [Function.update_of_ne ht]
        simp only [List.mem_cons, ht, false_or]
    · rw [List.filterMap_cons_none (show inUse commits s = none from if_neg hused),
        ih hnodup.2 fun t ht => hfree t (List.mem_cons_of_mem s ht)]
      refine congrArg some (funext fun t => ?_)
      by_cases ht : t = s
      · subst ht
        rw [if_neg (fun hmem => hused hmem.2), if_neg (fun hmem => hused hmem.2)]
      · simp only [List.mem_cons, ht, false_or]

theorem placeCommits_used {g : Group} (h : Fits g) :
    (usedCommits g).foldlM placeCommit blank.commits = some g.commits := by
  unfold usedCommits
  rw [foldlM_placeCommit (List.nodup_finRange 64) (fun s hused => ?_) fun _ _ => rfl]
  · refine congrArg some (funext fun s => ?_)
    rcases (h.slots s).2 with ⟨hepoch, hcommit⟩ | ⟨hused, -⟩
    · rw [if_neg (fun hmem => hmem.2 hepoch)]
      show (⟨0, 0⟩ : EpochCommit) = g.commits s
      rw [← hepoch, ← hcommit]
    · rw [if_pos ⟨List.mem_finRange s, hused⟩]
  · rcases (h.slots s).2 with ⟨hepoch, -⟩ | ⟨-, hslot⟩
    · exact absurd hepoch hused
    · exact hslot

/-- **A stored group is read back.** -/
theorem groupDecode_encode {g : Group} (h : Fits g) : groupDecode (groupEncode g) = some g := by
  have hbackfill : (UInt8.ofNat g.backfill).toNat = g.backfill := by
    rw [UInt8.toNat_ofNat', Nat.mod_eq_of_lt h.backfill]
  have hused : (usedCommits g).length ≤ 64 := by
    have hle := List.length_filterMap_le (inUse g.commits) (List.finRange 64)
    rwa [List.length_finRange] at hle
  have hepochs : ∀ c ∈ usedCommits g, c.epoch < 2 ^ 32 := by
    intro c hc
    obtain ⟨s, -, hs⟩ := List.mem_filterMap.1 hc
    unfold inUse at hs
    split at hs
    · rw [← Option.some.inj hs]
      exact (h.slots s).1
    · cases hs
  refine Reads.all ?_
  unfold readGroup groupEncode
  simp only [List.append_assoc]
  refine (reads_byte _).bind ?_
  rw [← List.nil_append (bytes32 g.id ++ _)]
  refine (Reads.check rfl).bind ?_
  refine (reads_key _).bind ((reads_be h.seq).bind ((reads_key _).bind ((reads_be h.epoch).bind
    ((reads_byte _).bind ?_))))
  refine (reads_many h.tables.members_le (by decide) fun k _ => reads_key k).bind ?_
  refine (reads_many h.tables.admins_le (by decide) fun k _ => reads_key k).bind ?_
  refine (reads_many h.tables.proposals_le (by decide) fun p hp =>
    reads_proposal (h.tables.approvals_le hp)).bind ?_
  refine (reads_many h.tables.hosts_le (by decide) fun x hx => reads_host (h.hosts x hx)).bind ?_
  rw [← List.append_nil (putMany 1 commitEncode (usedCommits g))]
  refine (reads_many hused (by decide) fun c hc => reads_commit (hepochs c hc)).bind ?_
  rw [hbackfill]
  exact (Reads.lift (placeCommits_used h)).last

/-! ## What a log says fits -/

variable {g g' : Group} {a : GroupAct} {hash : Bytes32}

theorem mem_updateHost {key : Key} {f : GroupHost → GroupHost} {hosts : List GroupHost}
    {x : GroupHost} (h : x ∈ updateHost key f hosts) : x ∈ hosts ∨ ∃ y ∈ hosts, x = f y := by
  induction hosts with
  | nil => exact absurd h List.not_mem_nil
  | cons y hosts ih =>
    unfold updateHost at h
    split at h
    · rcases List.mem_cons.1 h with rfl | hx
      · exact .inr ⟨y, List.mem_cons_self .., rfl⟩
      · exact .inl (List.mem_cons_of_mem y hx)
    · rcases List.mem_cons.1 h with rfl | hx
      · exact .inl (List.mem_cons_self ..)
      · rcases ih hx with hx | ⟨z, hz, heq⟩
        · exact .inl (List.mem_cons_of_mem y hx)
        · exact .inr ⟨z, List.mem_cons_of_mem y hz, heq⟩

theorem JudgeStep.epoch_lt (hstep : JudgeStep g a hash g') (h : g.epoch < 2 ^ 32) :
    g'.epoch < 2 ^ 32 := by
  rcases hstep.epoch h with ⟨-, heq⟩ | ⟨-, heq⟩ <;> rw [heq]
  · exact h
  · exact Nat.mod_lt _ (by decide)

theorem JudgeStep.hosts_fit (hstep : JudgeStep g a hash g') (h : Fits g) (hseq : a.seq < 2 ^ 32) :
    ∀ x ∈ g'.hosts, x.Fits := by
  have hdrop : ∀ x ∈ (dropMember g a.subject).hosts, x.Fits := by
    intro x hx
    have hhosts : (dropMember g a.subject).hosts = g.hosts.filter (·.owner ≠ a.subject) := by
      unfold dropMember dropHostsOf
      dsimp only
      split <;> rfl
    rw [hhosts] at hx
    exact h.hosts x (List.mem_filter.1 hx).1
  cases hstep with
  | add _ _ _ _ => exact h.hosts
  | remove _ _ _ _ => exact hdrop
  | leave _ _ _ _ => exact hdrop
  | approval _ happroves happrove =>
    rw [approve_frame happrove, happroves.frame]
    exact h.hosts
  | set _ _ _ _ => exact h.hosts
  | host _ _ _ _ hadd =>
    rw [addHost_frame hadd]
    intro x hx
    rcases List.mem_append.1 hx with hx | hx
    · exact h.hosts x hx
    · rw [List.mem_singleton.1 hx]
      exact ⟨hseq, h.epoch, Nat.two_pow_pos 32, h.epoch⟩
  | hostAgain _ _ _ hrename =>
    obtain ⟨h₀, -, -, rfl⟩ := renameHost_cases hrename
    intro x hx
    rcases mem_updateHost hx with hx | ⟨y, hy, rfl⟩
    · exact h.hosts x hx
    · obtain ⟨-, hjoined, hkeyed, hback⟩ := h.hosts y hy
      split
      · exact ⟨hseq, hjoined, hkeyed, hback⟩
      · exact ⟨hseq, hjoined, Nat.two_pow_pos 32, h.epoch⟩
  | keys _ hkeys =>
    obtain ⟨hosts, fresh, -, hle, -, -, hfold, hcases⟩ := keys_cases hkeys h.epoch
    have hvalue : a.value < 2 ^ 32 := hle.trans_lt h.epoch
    have hfit : ∀ x ∈ hosts, x.Fits := by
      refine keyHosts_induction (P := fun hs _ => ∀ x ∈ hs, x.Fits)
        (fun key _ hs n hs' n' hP hkey => ?_) hfold h.hosts
      obtain ⟨h₀, -, -, ⟨-, -, -, rfl⟩ | ⟨-, -, -, rfl⟩ | ⟨-, -, -, rfl⟩⟩ := keyHost_cases hkey
      · intro x hx
        rcases mem_updateHost hx with hx | ⟨y, hy, rfl⟩
        · exact hP x hx
        · obtain ⟨hyseq, hjoined, -, hback⟩ := hP y hy
          exact ⟨hyseq, hjoined, hvalue, hback⟩
      · intro x hx
        rcases mem_updateHost hx with hx | ⟨y, hy, rfl⟩
        · exact hP x hx
        · obtain ⟨hyseq, hjoined, hkeyed, -⟩ := hP y hy
          exact ⟨hyseq, hjoined, hkeyed, hvalue⟩
      · exact hP
    rcases hcases with ⟨-, -, rfl⟩ | ⟨-, -, rfl⟩
    · exact hfit
    · exact hfit

theorem JudgeStep.backfill (hstep : JudgeStep g a hash g') (hepoch : g.epoch < 2 ^ 32) :
    g'.backfill = g.backfill ∨ g'.backfill ≤ 1 := by
  cases hstep with
  | add _ _ _ _ => exact .inl rfl
  | remove _ _ _ _ =>
    rw [dropMember_frame]
    exact .inl rfl
  | leave _ _ _ _ =>
    rw [dropMember_frame]
    exact .inl rfl
  | approval _ happroves happrove =>
    rw [approve_frame happrove, happroves.frame]
    exact .inl rfl
  | set _ _ hvalue _ => exact .inr hvalue
  | host _ _ _ _ hadd =>
    rw [addHost_frame hadd]
    exact .inl rfl
  | hostAgain _ _ _ hrename =>
    obtain ⟨h₀, -, -, rfl⟩ := renameHost_cases hrename
    exact .inl rfl
  | keys _ hkeys =>
    obtain ⟨hosts, fresh, -, -, -, -, -, ⟨-, -, rfl⟩ | ⟨-, -, rfl⟩⟩ := keys_cases hkeys hepoch
    · exact .inl rfl
    · exact .inl rfl

theorem JudgeStep.fits (hstep : JudgeStep g a hash g') (h : Fits g) (hseq : a.seq < 2 ^ 32) :
    Fits g' where
  tables := hstep.tables h.tables h.epoch
  seq := by
    rw [(hstep.place h.epoch).2]
    exact h.seq
  epoch := hstep.epoch_lt h.epoch
  backfill := by
    rcases hstep.backfill h.epoch with heq | hle
    · rw [heq]
      exact h.backfill
    · exact hle.trans_lt (by decide)
  hosts := hstep.hosts_fit h hseq
  slots := by
    intro s
    rcases hstep.commits h.epoch with heq | ⟨hpos, -, -, -, heq⟩ <;> rw [heq]
    · exact h.slots s
    · by_cases hs : s = slot g.epoch
      · rw [hs, Function.update_self]
        exact ⟨h.epoch, .inr ⟨hpos.ne', rfl⟩⟩
      · rw [Function.update_of_ne hs]
        exact h.slots s

theorem fits_created (a : GroupAct) (hash : Bytes32) : Fits (created a hash) where
  tables := tables_created a hash
  seq := show 1 < 2 ^ 32 by decide
  epoch := show 1 < 2 ^ 32 by decide
  backfill := show 1 < 256 by decide
  hosts := by
    intro x hx
    rw [List.mem_singleton.1 hx]
    exact ⟨show 0 < 2 ^ 32 by decide, show 1 < 2 ^ 32 by decide, show 0 < 2 ^ 32 by decide,
      show 1 < 2 ^ 32 by decide⟩
  slots := fun _ => ⟨show 0 < 2 ^ 32 by decide, .inl ⟨rfl, rfl⟩⟩

theorem groupApply_fits (h : Fits g) (happ : groupApply g a hash = (.ok (), g')) : Fits g' := by
  rcases groupApply_cases happ with ⟨-, -, -, -, rfl⟩ | ⟨-, -, hseq, -, -, next, hstep, rfl⟩
  · exact fits_created a hash
  · have hnext := hstep.fits h (hseq ▸ h.seq)
    exact { hnext with tables := { hnext.tables with }, seq := Nat.mod_lt _ (by decide) }

/-- **Every group of a log fits what it is stored in.** -/
theorem Accepted.fits {log : List (GroupAct × Bytes32)} (h : Accepted log g) : Fits g := by
  induction h with
  | create ha happ =>
    obtain ⟨-, -, -, rfl⟩ := apply_of_create ha happ
    exact fits_created _ _
  | next _ _ happ ih => exact groupApply_fits ih happ

end Groups
end Fuzznet
