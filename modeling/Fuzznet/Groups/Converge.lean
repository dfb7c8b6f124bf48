/-
# Hosts agree on a group's log

A host whose store answers, offered the acts of a finite set in passes, takes the log of every
group as `Forks.offer` says (`Sim`): acts of one group fork at their places, and the lower
hash stands.  So each host comes to a pass that changes nothing, in whatever orders it is
offered them, and two hosts that have hold the same acts at the same places, from each
`create` on the lowest of those accepted (`hosts_agree`).
-/

import Mathlib.Order.Filter.AtTopBot.Basic
import Mathlib.Order.Filter.Finite
import Fuzznet.Lib.Forks
import Fuzznet.Groups.Replays

namespace Fuzznet
namespace Groups

open Wire Lib

/-- The forks of a group's log: an act goes to the place it names, under its hash. -/
def forks (id : Bytes32) : Forks (GroupAct × Bytes32) where
  place x := x.1.seq
  key x := x.2.toNat
  accepts log x := actGroup x.1 x.2 = id ∧ (log = [] ↔ x.1.kind = .create) ∧
    (groupApply (logGroup log) x.1 x.2).1.isOk

/-- A log as a store holds it: none before its first act. -/
def asLog : Log → Option Log
  | [] => none
  | x :: log => some (x :: log)

theorem asLog_of_ne {log : Log} (h : log ≠ []) : asLog log = some log := by
  cases log with
  | nil => exact absurd rfl h
  | cons x log => rfl

theorem asLog_inj {log log' : Log} (h : asLog log = asLog log') : log = log' := by
  cases log <;> cases log' <;> simp_all [asLog]

section Offer

variable {hash : HashOps} {B : Set Bytes} {rows : GroupRows} {log : Log}
variable {a : GroupAct} {h id : Bytes32}

theorem forks_accepts {g : Group} (hid : actGroup a h = id) (hkind : a.kind ≠ .create)
    (hlog : log ≠ []) (happ : groupApply (logGroup log) a h = (.ok (), g)) :
    (forks id).accepts log (a, h) = true := by
  refine decide_eq_true ⟨hid, ⟨fun hnil => absurd hnil hlog, fun hc => absurd hc hkind⟩, ?_⟩
  rw [happ]
  rfl

/-- An offer that changes nothing is none the forks take. -/
theorem offer_kept (hl : HoldsLog hash B rows id (asLog log)) (hid : actGroup a h = id)
    (htaken : (offerLog (asLog log) a h).1 ≠ .ok .taken)
    (hreplaced : (offerLog (asLog log) a h).1 ≠ .ok .replaced) :
    (forks id).offer log (a, h) = log := by
  obtain heq | ⟨hle, hacc, hlower, -⟩ := (forks id).offer_cases log (a, h)
  · exact heq
  exfalso
  obtain ⟨-, hcreate, hok⟩ := of_decide_eq_true hacc
  change a.seq ≤ log.length at hle
  change log.take a.seq = [] ↔ a.kind = .create at hcreate
  change (groupApply (logGroup (log.take a.seq)) a h).1.isOk = true at hok
  obtain ⟨g, happ⟩ : ∃ g, groupApply (logGroup (log.take a.seq)) a h = (.ok (), g) := by
    cases happ : groupApply (logGroup (log.take a.seq)) a h with
    | mk r g =>
      rw [happ] at hok
      cases r with
      | error e => cases hok
      | ok u => exact ⟨g, rfl⟩
  by_cases hkind : a.kind = .create
  · rw [hcreate.2 hkind] at happ
    have hseq := (apply_of_create hkind happ).1
    cases log with
    | nil =>
      refine htaken ?_
      unfold offerLog
      rw [if_pos hkind]
      dsimp only [asLog]
      rw [show blank = logGroup [] from rfl, happ]
    | cons x log =>
      -- the `create` of a group is its first act, of the same hash
      obtain ⟨g, hh⟩ := hl
      obtain ⟨c, hc, -⟩ := hh.accepted.head
      rw [hh.group_id, ← hid, show actGroup a h = h from if_pos hkind] at hc
      exact lt_irrefl _ (hlower (c, h) (by
        rw [show (forks id).place (a, h) = 0 from hseq]
        exact hc))
  · have hne : log.take a.seq ≠ [] := fun hnil => hkind (hcreate.1 hnil)
    have hlog : log ≠ [] := fun hnil => hne (by rw [hnil, List.take_nil])
    have hpos : a.seq ≠ 0 := fun hzero => hne (by rw [hzero, List.take_zero])
    rw [asLog_of_ne hlog] at htaken hreplaced
    cases hx : log[a.seq]? with
    | none =>
      refine htaken ?_
      rw [List.take_of_length_le (List.getElem?_eq_none_iff.1 hx)] at happ
      unfold offerLog
      rw [if_neg hkind]
      dsimp only
      rw [if_neg (not_lt.2 hle), hx]
      dsimp only
      rw [happ]
    | some there =>
      have hwon : Won log a h there g := ⟨hkind, hpos, hx, hlower there hx, happ⟩
      exact hreplaced (congrArg Prod.fst hwon.replaced)

/-- **An offer to a stored log is one to its forks.** -/
theorem offerLog_forks (hl : HoldsLog hash B rows id (asLog log)) (hid : actGroup a h = id) :
    (offerLog (asLog log) a h).2 = asLog ((forks id).offer log (a, h)) := by
  rcases offerLog_cases (asLog log) a h with ⟨hsame, htaken, hreplaced⟩ |
    ⟨hnone, hkind, ⟨g, happ⟩, heq⟩ | ⟨log', g, hlog, hkind, hseq, happ, heq⟩ |
    ⟨log', there, next, hlog, hwon, heq⟩
  · rw [hsame, offer_kept hl hid htaken hreplaced]
  · obtain rfl : log = [] := asLog_inj hnone
    have hplace : (forks id).place (a, h) = 0 := (apply_of_create hkind happ).1
    rw [heq, (forks id).offer_eq hplace.le (decide_eq_true ⟨hid, by simp [hkind], ?_⟩)
      (fun there hx => by rw [hplace] at hx; cases hx), List.take_nil]
    · rfl
    · rw [List.take_nil, show logGroup [] = blank from rfl, happ]
      rfl
  · have hne : log ≠ [] := fun hnil => by
      rw [hnil] at hlog
      cases hlog
    obtain rfl := Option.some.inj ((asLog_of_ne hne).symm.trans hlog)
    have hplace : (forks id).place (a, h) = log.length := hseq
    have htake : log.take ((forks id).place (a, h)) = log := List.take_of_length_le hplace.ge
    rw [heq, (forks id).offer_eq hplace.le (by rw [htake]; exact forks_accepts hid hkind hne happ)
      (fun there hx => by
        rw [hplace, List.getElem?_eq_none le_rfl] at hx
        cases hx), htake]
    exact (asLog_of_ne (by simp)).symm
  · have hne : log ≠ [] := fun hnil => by
      rw [hnil] at hlog
      cases hlog
    obtain rfl := Option.some.inj ((asLog_of_ne hne).symm.trans hlog)
    have hlt := (List.getElem?_eq_some_iff.1 hwon.there_eq).1
    have htake : log.take a.seq ≠ [] := fun hnil => by
      have hlen := hwon.length_take
      rw [hnil] at hlen
      exact hwon.pos hlen.symm
    rw [heq, (forks id).offer_eq (show (forks id).place (a, h) ≤ log.length from hlt.le)
      (forks_accepts hid hwon.kind htake hwon.applied)
      (fun x hx => by
        obtain rfl := Option.some.inj (hwon.there_eq.symm.trans hx)
        exact hwon.lower)]
    exact (asLog_of_ne (by simp)).symm

/-- An offer that leaves its log takes nothing. -/
theorem offerLog_quiet {l : Option Log} (hsame : (offerLog l a h).2 = l) :
    (offerLog l a h).1 ≠ .ok .taken ∧ (offerLog l a h).1 ≠ .ok .replaced := by
  rcases offerLog_cases l a h with ⟨-, hquiet⟩ | ⟨rfl, -, -, heq⟩ |
    ⟨log, g, rfl, -, -, -, heq⟩ | ⟨log, there, next, rfl, hwon, heq⟩
  · exact hquiet
  · rw [heq] at hsame
    cases hsame
  · rw [heq] at hsame
    exact absurd (congrArg List.length (Option.some.inj hsame)) (by simp)
  · rw [heq] at hsame
    have hput : (log.take a.seq ++ [(a, h)])[a.seq]? = some (a, h) := by
      rw [List.getElem?_append_right hwon.length_take.le, hwon.length_take, Nat.sub_self]
      rfl
    rw [Option.some.inj hsame, hwon.there_eq] at hput
    have hlower := hwon.lower
    rw [Option.some.inj hput] at hlower
    exact absurd hlower (lt_irrefl _)

end Offer

/-! ## What is not taken is not written -/

section Quiet

variable {ops : GroupLogOps} (rows : GroupRows) (id : Bytes32)

theorem logGet_nil : ∃ r, logGet ⟨rows, []⟩ id = (r, ⟨rows, []⟩) := by
  unfold logGet
  rw [show (⟨rows, []⟩ : GroupDisk).ask (.group id) = (rows.lookup (.group id), ⟨rows, []⟩) from rfl]
  cases rows.lookup (.group id) with
  | none => exact ⟨_, rfl⟩
  | some bytes =>
    dsimp only
    cases groupDecode bytes with
    | none => exact ⟨_, rfl⟩
    | some g => exact ⟨_, rfl⟩

theorem logAct_nil (hash : HashOps) (s : ℕ) :
    ∃ r, logAct hash ⟨rows, []⟩ id s = (r, ⟨rows, []⟩) := by
  unfold logAct
  cases actSubject hash id s with
  | none => exact ⟨_, rfl⟩
  | some z =>
    dsimp only
    rw [show (⟨rows, []⟩ : GroupDisk).ask (.act z) = (rows.lookup (.act z), ⟨rows, []⟩) from rfl]
    cases rows.lookup (.act z) with
    | none => exact ⟨_, rfl⟩
    | some bytes => exact ⟨_, rfl⟩

theorem replayFrom_nil (hash : HashOps) (n s : ℕ) (g : Group) :
    ∃ r, replayFrom hash id n s g ⟨rows, []⟩ = (r, ⟨rows, []⟩) := by
  induction n generalizing s g with
  | zero => exact ⟨_, rfl⟩
  | succ n ih =>
    obtain ⟨r, hr⟩ := logAct_nil rows id hash s
    unfold replayFrom
    rw [hr]
    cases r with
    | error e => exact ⟨_, rfl⟩
    | ok bytes =>
      dsimp only
      cases actDecode bytes with
      | none => exact ⟨_, rfl⟩
      | some a =>
        dsimp only
        cases actHash a hash with
        | none => exact ⟨_, rfl⟩
        | some h =>
          dsimp only
          cases groupApply g a h with
          | mk r g' =>
            cases r with
            | error e => exact ⟨_, rfl⟩
            | ok u => exact ih (s + 1) g'

theorem fileNext_nil (hanswers : ∀ i, ops.hash.hash i ≠ none) (rows : GroupRows) (id : Bytes32)
    (s : ℕ) (bytes : Bytes) (g : Group) :
    (fileNext ops ⟨rows, []⟩ id s bytes g).1 = .ok () := by
  unfold fileNext actSave actSubject
  obtain ⟨z, hz⟩ := Option.ne_none_iff_exists'.1 (hanswers (Session.bytes32 id ++ putBe 4 s))
  rw [hz]
  dsimp only
  rw [Disk.save_of_nil rfl]
  dsimp only
  unfold groupSave
  rw [Disk.save_of_nil rfl]

theorem takeNext_nil (hanswers : ∀ i, ops.hash.hash i ≠ none) (rows : GroupRows) (g : Group)
    (a : GroupAct) (h : Bytes32) (bytes : Bytes) :
    (takeNext ops ⟨rows, []⟩ g a h bytes).1 = .ok .taken ∨
      (takeNext ops ⟨rows, []⟩ g a h bytes).2 = ⟨rows, []⟩ := by
  unfold takeNext
  cases groupApply g a h with
  | mk r g' =>
    cases r with
    | error e => exact .inr rfl
    | ok u =>
      have hfile := fileNext_nil hanswers rows g'.id a.seq bytes g'
      dsimp only
      cases hres : fileNext ops ⟨rows, []⟩ g'.id a.seq bytes g' with
      | mk r d =>
        rw [hres] at hfile
        obtain rfl : r = .ok () := hfile
        exact .inl rfl

theorem offerFork_nil (hanswers : ∀ i, ops.hash.hash i ≠ none) (rows : GroupRows) (g : Group)
    (a : GroupAct) (h : Bytes32) (bytes : Bytes) :
    (offerFork ops ⟨rows, []⟩ g a h bytes).answer = .ok .replaced ∨
      (offerFork ops ⟨rows, []⟩ g a h bytes).disk = ⟨rows, []⟩ := by
  unfold offerFork actThere
  split
  · exact .inr rfl
  obtain ⟨r, hr⟩ := logAct_nil rows a.group ops.hash a.seq
  rw [hr]
  cases r with
  | error e => exact .inr rfl
  | ok held =>
    dsimp only
    cases (actDecode held).bind fun there => (actHash there ops.hash).map (held, ·) with
    | none => exact .inr rfl
    | some z =>
      obtain ⟨held', there⟩ := z
      dsimp only
      split
      · exact .inr rfl
      unfold replay
      obtain ⟨r, hr⟩ := replayFrom_nil rows a.group ops.hash a.seq 0 blank
      rw [hr]
      cases r with
      | error e => exact .inr rfl
      | ok rolled =>
        dsimp only
        cases groupApply rolled a h with
        | mk r next =>
          cases r with
          | error e => exact .inr rfl
          | ok u =>
            dsimp only
            split
            · exact .inr rfl
            have hfile : (fileFork ops ⟨rows, []⟩ rolled next a bytes).1 = .ok () := by
              unfold fileFork groupSave
              rw [Disk.save_of_nil rfl]
              exact fileNext_nil hanswers _ _ _ _ _
            cases hres : fileFork ops ⟨rows, []⟩ rolled next a bytes with
            | mk r d =>
              rw [hres] at hfile
              obtain rfl : r = .ok () := hfile
              exact .inl rfl

/-- **An offer neither taken nor replaced** writes nothing. -/
theorem offered_rows (hanswers : ∀ i, ops.hash.hash i ≠ none) {rows : GroupRows} {x : Bytes}
    (htaken : answer ops rows x ≠ .ok .taken) (hreplaced : answer ops rows x ≠ .ok .replaced) :
    offered ops rows x = rows := by
  unfold answer at htaken hreplaced
  unfold offered offerCall
  suffices h : (groupLogOffer ops ⟨rows, []⟩ x).disk = ⟨rows, []⟩ by rw [h]
  unfold groupLogOffer at htaken hreplaced ⊢
  cases hact : actOf ops x with
  | none => rfl
  | some y =>
    obtain ⟨a, h⟩ := y
    rw [hact] at htaken hreplaced
    dsimp only at htaken hreplaced ⊢
    by_cases hkind : a.kind = .create
    · rw [if_pos hkind] at htaken ⊢
      obtain ⟨r, hr⟩ := logGet_nil rows h
      rw [hr] at htaken ⊢
      cases r with
      | ok g => rfl
      | error e => exact (takeNext_nil hanswers rows blank a h x).resolve_left htaken
    rw [if_neg hkind] at htaken hreplaced ⊢
    obtain ⟨r, hr⟩ := logGet_nil rows a.group
    rw [hr] at htaken hreplaced ⊢
    cases r with
    | error e => rfl
    | ok g =>
      dsimp only at htaken hreplaced ⊢
      by_cases hgap : g.seq < a.seq
      · rw [if_pos hgap]
        rfl
      rw [if_neg hgap] at htaken hreplaced ⊢
      by_cases hhead : a.seq = g.seq
      · rw [if_pos hhead] at htaken ⊢
        exact (takeNext_nil hanswers rows g a h x).resolve_left htaken
      · rw [if_neg hhead] at hreplaced ⊢
        exact (offerFork_nil hanswers rows g a h x).resolve_left hreplaced

end Quiet

/-! ## A host -/

/-- An act, where it is of the group `id`. -/
def actIn (ops : GroupLogOps) (id : Bytes32) (x : Bytes) : Option (GroupAct × Bytes32) :=
  (actOf ops x).filter fun y => actGroup y.1 y.2 = id

/-- The acts of a group among those of a set. -/
def actsOf (ops : GroupLogOps) (S : Set Bytes) (id : Bytes32) : Set (GroupAct × Bytes32) :=
  {y | ∃ x ∈ S, actIn ops id x = some y}

/-- A store that holds logs. -/
def Sim (hash : HashOps) (S : Set Bytes) (rows : GroupRows) (logs : Bytes32 → Log) : Prop :=
  ∀ id, HoldsLog hash S rows id (asLog (logs id))

/-- What an offer makes of the logs. -/
def offerLogs (ops : GroupLogOps) (logs : Bytes32 → Log) (x : Bytes) (id : Bytes32) : Log :=
  (actIn ops id x).elim (logs id) ((forks id).offer (logs id))

/-- The store of a host behind `n` passes of offers, each of them answered. -/
def hostRun (ops : GroupLogOps) (passes : ℕ → List Bytes) : ℕ → GroupRows
  | 0 => ∅
  | n + 1 => (passes n).foldl (offered ops) (hostRun ops passes n)

/-- The logs behind `n` passes. -/
def hostLogs (ops : GroupLogOps) (passes : ℕ → List Bytes) (id : Bytes32) : ℕ → Log
  | 0 => []
  | n + 1 => ((passes n).filterMap (actIn ops id)).foldl (forks id).offer
      (hostLogs ops passes id n)

/-- Each pass offers the whole set, in whatever order. -/
def Covers (S : Set Bytes) (passes : ℕ → List Bytes) : Prop := ∀ n x, x ∈ passes n ↔ x ∈ S

/-- No act is taken at the last place a log has. -/
def HasRoom (ops : GroupLogOps) (passes : ℕ → List Bytes) : Prop :=
  ∀ n pre x, pre ++ [x] <+: passes n →
    RoomFor ops (pre.foldl (offered ops) (hostRun ops passes n)) ⟨x, []⟩

/-- A pass that changes no row. -/
def Quiet (ops : GroupLogOps) (passes : ℕ → List Bytes) (n : ℕ) : Prop :=
  ∀ k, (hostRun ops passes (n + 1)).lookup k = (hostRun ops passes n).lookup k

section Hosts

variable {ops : GroupLogOps} {S : Set Bytes} {rows : GroupRows} {logs : Bytes32 → Log}
variable {x : Bytes} {a : GroupAct} {h id : Bytes32} {pass : List Bytes}
variable {passes : ℕ → List Bytes}

theorem actIn_eq_some {y : GroupAct × Bytes32} :
    actIn ops id x = some y ↔ actOf ops x = some y ∧ actGroup y.1 y.2 = id := by
  unfold actIn
  rw [Option.filter_eq_some_iff, decide_eq_true_iff]

/-- **One offer**, of the store and of its logs. -/
theorem Sim.offered (hsim : Sim ops.hash S rows logs) (hd : Distinct ops.hash S)
    (hanswers : ∀ i, ops.hash.hash i ≠ none) (hx : x ∈ S) (hroom : RoomFor ops rows ⟨x, []⟩) :
    Sim ops.hash S (offered ops rows x) (offerLogs ops logs x) ∧
      (offerLogs ops logs x = logs → answer ops rows x ≠ .ok .taken ∧
        answer ops rows x ≠ .ok .replaced) := by
  cases hact : actOf ops x with
  | none =>
    have hnone : ∀ id, offerLogs ops logs x id = logs id := fun id => by
      unfold offerLogs actIn
      rw [hact]
      rfl
    refine ⟨fun id => ?_, fun _ => ?_⟩
    · rw [hnone]
      unfold Groups.offered offerCall
      rw [offer_refused hact]
      exact hsim id
    · rw [answer_refused hact]
      exact ⟨by simp, by simp⟩
  | some y =>
    obtain ⟨a, h⟩ := y
    obtain ⟨hans, hheld, hapart⟩ := offer_answered hd hanswers hx hact (hsim (actGroup a h))
      (hroom.room hact (hsim (actGroup a h)))
    have hforks := offerLog_forks (hsim (actGroup a h)) rfl
    have hown : offerLogs ops logs x (actGroup a h) =
        (forks (actGroup a h)).offer (logs (actGroup a h)) (a, h) := by
      unfold offerLogs
      rw [actIn_eq_some.2 ⟨hact, rfl⟩]
      rfl
    refine ⟨fun id => ?_, fun hsame => ?_⟩
    · by_cases hid : id = actGroup a h
      · rw [hid, hown, ← hforks]
        exact hheld
      · have hother : offerLogs ops logs x id = logs id := by
          unfold offerLogs
          cases hin : actIn ops id x with
          | none => rfl
          | some z =>
            obtain ⟨hz, hzid⟩ := actIn_eq_some.1 hin
            obtain rfl := Option.some.inj (hact.symm.trans hz)
            exact absurd hzid.symm hid
        rw [hother]
        exact hapart id _ hid (hsim id)
    · rw [hans]
      have hkeep : (offerLog (asLog (logs (actGroup a h))) a h).2 =
          asLog (logs (actGroup a h)) := by
        rw [hforks, ← hown, hsame]
      exact offerLog_quiet hkeep

theorem place_lt {y : GroupAct × Bytes32} (hy : actIn ops id x = some y) :
    (forks id).place y < 2 ^ 32 := by
  obtain ⟨hact, -⟩ := actIn_eq_some.1 hy
  obtain ⟨hdecode, -⟩ := actOf_spec (h := y.2) hact
  show y.1.seq < 2 ^ 32
  unfold actDecode at hdecode
  dsimp only at hdecode
  split at hdecode
  · cases hdecode
  split at hdecode
  · cases hdecode
  split at hdecode
  · cases hdecode
  split at hdecode
  · cases hdecode
  split at hdecode
  · cases hdecode
  rw [← Option.some.inj hdecode]
  exact getBe_lt _ 3 4

/-- **One pass**, of the store and of its logs. -/
theorem Sim.foldl (hsim : Sim ops.hash S rows logs) (hd : Distinct ops.hash S)
    (hanswers : ∀ i, ops.hash.hash i ≠ none) (hpass : ∀ x ∈ pass, x ∈ S)
    (hroom : ∀ pre x, pre ++ [x] <+: pass →
      RoomFor ops (pre.foldl (Groups.offered ops) rows) ⟨x, []⟩) :
    Sim ops.hash S (pass.foldl (Groups.offered ops) rows)
      (fun id => (pass.filterMap (actIn ops id)).foldl (forks id).offer (logs id)) := by
  induction pass generalizing rows logs with
  | nil => exact hsim
  | cons x pass ih =>
    obtain ⟨hx, hrest⟩ := List.forall_mem_cons.1 hpass
    have hone := (hsim.offered hd hanswers hx (hroom [] x ⟨pass, rfl⟩)).1
    have hmore := ih hone hrest fun pre y hle =>
      hroom (x :: pre) y (List.cons_prefix_cons.2 ⟨rfl, hle⟩)
    rw [List.foldl_cons]
    intro id
    dsimp only
    rw [List.filterMap_cons]
    have hid := hmore id
    dsimp only [offerLogs] at hid
    cases hin : actIn ops id x with
    | none =>
      rw [hin] at hid
      exact hid
    | some y =>
      rw [hin] at hid
      exact hid

/-- **A run of passes**, of the store and of its logs. -/
theorem sim_host (hd : Distinct ops.hash S) (hanswers : ∀ i, ops.hash.hash i ≠ none)
    (hcovers : Covers S passes) (hroom : HasRoom ops passes) (n : ℕ) :
    Sim ops.hash S (hostRun ops passes n) (fun id => hostLogs ops passes id n) := by
  induction n with
  | zero => exact fun id => AList.lookup_empty _
  | succ n ih => exact ih.foldl hd hanswers (fun x hx => (hcovers n x).1 hx) (hroom n)

theorem mem_acts (hcovers : Covers S passes) {n : ℕ} {y : GroupAct × Bytes32} :
    y ∈ (passes n).filterMap (actIn ops id) ↔ y ∈ actsOf ops S id := by
  rw [List.mem_filterMap]
  exact exists_congr fun x => and_congr_left' (hcovers n x)

theorem lawful_host (hcovers : Covers S passes) (n : ℕ) :
    (forks id).Lawful (actsOf ops S id) (hostLogs ops passes id n) := by
  induction n with
  | zero => exact (forks id).lawful_nil _
  | succ n ih =>
    refine foldl_induction (fun pre y hle hlaw => hlaw.offer ?_) ih
    exact (mem_acts hcovers).1
      (hle.subset (List.mem_append_right _ (List.mem_singleton_self y)))

theorem places_lt {n : ℕ} :
    ∀ y ∈ (passes n).filterMap (actIn ops id), (forks id).place y < 2 ^ 32 := by
  intro y hy
  obtain ⟨x, -, hin⟩ := List.mem_filterMap.1 hy
  exact place_lt hin

/-! ## A quiet pass -/

/-- Every log comes to rest, and all of them by one pass. -/
theorem host_rests (ops : GroupLogOps) (hS : S.Finite) (hcovers : Covers S passes) :
    ∃ n, ∀ m, n ≤ m → ∀ id, hostLogs ops passes id m = hostLogs ops passes id n := by
  have hone : ∀ id, ∀ᶠ n in Filter.atTop,
      ∀ m, n ≤ m → hostLogs ops passes id m = hostLogs ops passes id n := by
    intro id
    obtain ⟨n, hn⟩ := (forks id).exists_rest (fun k => @places_lt ops id passes k)
      (show ∀ k, hostLogs ops passes id (k + 1) = _ from fun _ => rfl)
    exact Filter.eventually_atTop.2
      ⟨n, fun k hk m hm => (hn m (hk.trans hm)).trans (hn k hk).symm⟩
  -- the groups of the acts, the only ones with a log
  have hfinite : {id | ∃ x ∈ S, ∃ y, actIn ops id x = some y}.Finite := by
    refine (hS.image fun x => (actOf ops x).elim 0 fun y => actGroup y.1 y.2).subset ?_
    rintro id ⟨x, hx, y, hy⟩
    obtain ⟨hact, hid⟩ := actIn_eq_some.1 hy
    refine ⟨x, hx, ?_⟩
    dsimp only
    rw [hact]
    exact hid
  obtain ⟨n, hn⟩ := Filter.eventually_atTop.1
    ((Filter.eventually_all_finite hfinite).2 fun id _ => hone id)
  refine ⟨n, fun m hm id => ?_⟩
  by_cases hid : ∃ x ∈ S, ∃ y, actIn ops id x = some y
  · exact hn n le_rfl id hid m hm
  · have hnone : ∀ k, hostLogs ops passes id k = [] := by
      intro k
      induction k with
      | zero => rfl
      | succ k ih =>
        have hnil : (passes k).filterMap (actIn ops id) = [] := by
          rw [List.filterMap_eq_nil_iff]
          intro x hx
          exact Option.eq_none_iff_forall_ne_some.2 fun y hy =>
            hid ⟨x, (hcovers k x).1 hx, y, hy⟩
        show List.foldl _ _ ((passes k).filterMap (actIn ops id)) = _
        rw [hnil]
        exact ih
    rw [hnone, hnone]

/-- **A host comes to a quiet pass.** -/
theorem exists_quiet (hS : S.Finite) (hd : Distinct ops.hash S)
    (hanswers : ∀ i, ops.hash.hash i ≠ none) (hcovers : Covers S passes)
    (hroom : HasRoom ops passes) : ∃ n, Quiet ops passes n := by
  obtain ⟨n, hn⟩ := host_rests ops hS hcovers
  refine ⟨n, fun k => ?_⟩
  have hsim := sim_host hd hanswers hcovers hroom n
  have hstay : (passes n).foldl (offered ops) (hostRun ops passes n) = hostRun ops passes n := by
    refine foldl_induction (P := fun rows => rows = hostRun ops passes n)
      (fun pre x hle hrows => ?_) rfl
    have hx : x ∈ passes n := hle.subset (List.mem_append_right _ (List.mem_singleton_self x))
    have hkeep : offerLogs ops (fun id => hostLogs ops passes id n) x =
        fun id => hostLogs ops passes id n := by
      funext id
      unfold offerLogs
      cases hin : actIn ops id x with
      | none => rfl
      | some y =>
        exact (forks id).offer_of_foldl places_lt (hn (n + 1) (Nat.le_succ n) id) y
          (List.mem_filterMap.2 ⟨x, hx, hin⟩)
    rw [hrows]
    have hroomx := hroom n pre x hle
    rw [hrows] at hroomx
    obtain ⟨htaken, hreplaced⟩ :=
      (hsim.offered hd hanswers ((hcovers n x).1 hx) hroomx).2 hkeep
    exact offered_rows hanswers htaken hreplaced
  rw [show hostRun ops passes (n + 1) = _ from hstay]

/-- A store holds one log of a group. -/
theorem HoldsLog.unique {hash : HashOps} {l l' : Option Log} (hl : HoldsLog hash S rows id l)
    (hl' : HoldsLog hash S rows id l') : l = l' := by
  have hstored := hl.stored.symm.trans hl'.stored
  cases l with
  | none =>
    cases l' with
    | none => rfl
    | some log' => cases hstored
  | some log =>
    cases l' with
    | none => cases hstored
    | some log' =>
      have hlen : log.length = log'.length := by
        rw [← hl.seq, ← hl'.seq, Option.some.inj hstored]
      obtain ⟨g, hh⟩ := hl
      obtain ⟨g', hh'⟩ := hl'
      refine congrArg some (List.ext_getElem hlen fun s hs hs' => ?_)
      obtain ⟨b, -, hat, hdecode, hhash⟩ := hh.acts s _ (List.getElem?_eq_getElem hs)
      obtain ⟨b', -, hat', hdecode', hhash'⟩ := hh'.acts s _ (List.getElem?_eq_getElem hs')
      obtain rfl := Option.some.inj (hat.symm.trans hat')
      have hact := Option.some.inj (hdecode.symm.trans hdecode')
      rw [← hact] at hhash'
      exact Prod.ext hact (Option.some.inj (hhash.symm.trans hhash'))

/-- **Behind a quiet pass every log is at rest.** -/
theorem atRest_of_quiet (hd : Distinct ops.hash S) (hanswers : ∀ i, ops.hash.hash i ≠ none)
    (hcovers : Covers S passes) (hroom : HasRoom ops passes) {n : ℕ}
    (hquiet : Quiet ops passes n) (id : Bytes32) :
    (forks id).AtRest (actsOf ops S id) (hostLogs ops passes id n) := by
  have hsim := sim_host hd hanswers hcovers hroom
  have hsame : hostLogs ops passes id (n + 1) = hostLogs ops passes id n :=
    asLog_inj ((hsim (n + 1) id).unique ((hsim n id).congr hquiet))
  exact ⟨lawful_host hcovers n, fun y hy =>
    (forks id).offer_of_foldl places_lt hsame y ((mem_acts hcovers).2 hy)⟩

theorem injOn_key (hd : Distinct ops.hash S) : Set.InjOn (forks id).key (actsOf ops S id) := by
  rintro y ⟨x, hx, hy⟩ y' ⟨x', hx', hy'⟩ hkey
  obtain ⟨hact, -⟩ := actIn_eq_some.1 hy
  obtain ⟨hact', -⟩ := actIn_eq_some.1 hy'
  obtain ⟨hdecode, -, hhash⟩ := actOf_spec (a := y.1) (h := y.2) hact
  obtain ⟨hdecode', -, hhash'⟩ := actOf_spec (a := y'.1) (h := y'.2) hact'
  have heq : y.2 = y'.2 := BitVec.eq_of_toNat_eq hkey
  rw [hash_of_decode hdecode] at hhash
  rw [hash_of_decode hdecode', ← heq] at hhash'
  obtain rfl := hd.acts x hx x' hx' _ hhash hhash'
  exact Option.some.inj (hy.symm.trans hy')

end Hosts

/-! ## Two hosts -/

/-- An act of `S` taken behind a group that is not empty. -/
def AcceptedAt (ops : GroupLogOps) (S : Set Bytes) (g : Group) (a : GroupAct) (h : Bytes32) :
    Prop :=
  a.kind ≠ .create ∧ (∃ x ∈ S, actOf ops x = some (a, h)) ∧
    ∃ g', groupApply g a h = (.ok (), g')

/-- A store of the groups the `create`s of `S` begin, each with the lowest act accepted at
every place, and none accepted behind the last. -/
structure LowestKept (ops : GroupLogOps) (S : Set Bytes) (rows : GroupRows) : Prop where
  begun : ∀ id, storedGroup rows id ≠ none ↔ ∃ x ∈ S, ∃ a g, actOf ops x = some (a, id) ∧
    a.kind = .create ∧ groupApply blank a id = (.ok (), g)
  first : ∀ id g, storedGroup rows id = some g → ∃ x ∈ S, ∃ a, actOf ops x = some (a, id) ∧
    a.kind = .create ∧ actAt ops.hash rows id 0 = some x
  lowest : ∀ id g, storedGroup rows id = some g → ∀ s, 0 < s → s < g.seq →
    ∃ before x a h, (replay ops.hash ⟨rows, []⟩ id s).1 = .ok before ∧
      actAt ops.hash rows id s = some x ∧ actOf ops x = some (a, h) ∧
      AcceptedAt ops S before a h ∧
      ∀ b k, AcceptedAt ops S before b k → h.toNat ≤ k.toNat
  ended : ∀ id g, storedGroup rows id = some g → ∀ b k, ¬AcceptedAt ops S g b k

section Agree

variable {ops : GroupLogOps} {S : Set Bytes} {rows : GroupRows} {logs : Bytes32 → Log}
variable {log : Log} {a : GroupAct} {h id : Bytes32} {g : Group} {s : ℕ}

/-- An act filed is an act of the set, byte for byte. -/
theorem Filed.actOf_eq (hf : Filed ops.hash S rows id s (a, h)) (hd : Distinct ops.hash S)
    (hin : (a, h) ∈ actsOf ops S id) :
    ∃ x ∈ S, actAt ops.hash rows id s = some x ∧ actOf ops x = some (a, h) := by
  obtain ⟨x, hx, hat, hdecode, hhash⟩ := hf
  obtain ⟨x', hx', hin'⟩ := hin
  obtain ⟨hact, -⟩ := actIn_eq_some.1 hin'
  obtain ⟨hdecode', -, hhash'⟩ := actOf_spec hact
  rw [hash_of_decode hdecode] at hhash
  rw [hash_of_decode hdecode'] at hhash'
  obtain rfl := hd.acts x hx x' hx' _ hhash hhash'
  exact ⟨x, hx, hat, hact⟩

/-- Behind a stored log at rest no act accepted is lower than the next, and none is behind the
last. -/
theorem key_le_of_accepted (hl : HoldsLog ops.hash S rows id (some log))
    (hrest : (forks id).AtRest (actsOf ops S id) log) (hs : 0 < s) (hle : s ≤ log.length)
    {b : GroupAct} {k : Bytes32} (hacc : AcceptedAt ops S (logGroup (log.take s)) b k) :
    ∃ y, log[s]? = some y ∧ y.2.toNat ≤ k.toNat := by
  obtain ⟨hkind, ⟨x, hx, hact⟩, g', happ⟩ := hacc
  obtain ⟨g, hh⟩ := hl
  obtain ⟨g₀, h₀⟩ := hh.accepted.take hs hle
  have hlen : (log.take s).length = s := by
    rw [List.length_take]
    omega
  have hlt := hh.length_lt
  rw [← h₀.eq] at happ
  obtain ⟨hgroup, -, hseq, -⟩ := group_of_applied hkind h₀ happ
  rw [h₀.seq_eq (by omega), hlen] at hseq
  have hid₀ : g₀.id = id := by
    obtain ⟨c, hc, -⟩ := hh.accepted.head
    obtain ⟨c₀, hc₀, -⟩ := h₀.head
    rw [List.getElem?_take_of_lt hs, hc] at hc₀
    rw [← (Prod.mk.inj (Option.some.inj hc₀)).2, hh.group_id]
  have hid : actGroup b k = id := (if_neg hkind).trans (hgroup.trans hid₀)
  have hplace : (forks id).place (b, k) = s := hseq
  have hmem : (b, k) ∈ actsOf ops S id := ⟨x, hx, actIn_eq_some.2 ⟨hact, hid⟩⟩
  have hne : log.take s ≠ [] := fun hnil => by
    rw [hnil] at hlen
    exact absurd hlen.symm (by simpa using hs.ne')
  obtain ⟨y, hy, hkey⟩ := hrest.lowest hmem (hplace.le.trans hle) (by
    rw [hplace]
    exact forks_accepts hid hkind hne (h₀.eq ▸ happ))
  rw [hplace] at hy
  exact ⟨y, hy, hkey⟩

/-- A store of logs at rest keeps the lowest acts. -/
theorem Sim.lowestKept (hsim : Sim ops.hash S rows logs) (hd : Distinct ops.hash S)
    (hrest : ∀ id, (forks id).AtRest (actsOf ops S id) (logs id)) : LowestKept ops S rows := by
  have hsome : ∀ id g, storedGroup rows id = some g → logs id ≠ [] ∧
      HoldsLog ops.hash S rows id (some (logs id)) ∧ g = logGroup (logs id) := by
    intro id g hg
    have hl := hsim id
    rw [hl.stored] at hg
    have hne : logs id ≠ [] := fun hnil => by
      rw [hnil] at hg
      cases hg
    rw [asLog_of_ne hne] at hl hg
    exact ⟨hne, hl, (Option.some.inj hg).symm⟩
  have hfirst : ∀ id g, storedGroup rows id = some g → ∃ x ∈ S, ∃ a, actOf ops x = some (a, id) ∧
      a.kind = .create ∧ actAt ops.hash rows id 0 = some x := by
    intro id g hg
    obtain ⟨-, ⟨g', hh⟩, -⟩ := hsome id g hg
    obtain ⟨c, hc, hkind, -⟩ := hh.accepted.head
    rw [hh.group_id] at hc
    obtain ⟨x, hx, hat, hact⟩ := (hh.acts 0 _ hc).actOf_eq hd ((hrest id).lawful 0 _ hc).1
    exact ⟨x, hx, c, hact, hkind, hat⟩
  refine ⟨fun id => ⟨fun hne => ?_, ?_⟩, hfirst, fun id g hg s hs hlt => ?_, fun id g hg b k hacc => ?_⟩
  · obtain ⟨g, hg⟩ := Option.ne_none_iff_exists'.1 hne
    obtain ⟨-, ⟨g', hh⟩, -⟩ := hsome id g hg
    obtain ⟨c, hc, hkind, hseq, hgroup, hprev⟩ := hh.accepted.head
    rw [hh.group_id] at hc
    obtain ⟨x, hx, -, hact⟩ := (hh.acts 0 _ hc).actOf_eq hd ((hrest id).lawful 0 _ hc).1
    exact ⟨x, hx, c, _, hact, hkind, groupApply_create hkind hseq hgroup hprev⟩
  · rintro ⟨x, hx, a, g, hact, hkind, happ⟩ hnone
    -- a `create` accepted in no log would be taken
    have hnil : logs id = [] := by
      by_contra hne
      have hl := hsim id
      rw [asLog_of_ne hne] at hl
      rw [hl.stored] at hnone
      cases hnone
    have hid : actGroup a id = id := if_pos hkind
    have hplace : (forks id).place (a, id) = 0 := (apply_of_create hkind happ).1
    obtain ⟨y, hy, -⟩ := (hrest id).lowest ⟨x, hx, actIn_eq_some.2 ⟨hact, hid⟩⟩
      (hplace.trans_le (Nat.zero_le _)) (by
        rw [hnil, List.take_nil]
        refine decide_eq_true ⟨hid, by simp [hkind], ?_⟩
        rw [show logGroup [] = blank from rfl, happ]
        rfl)
    rw [hnil] at hy
    cases hy
  · obtain ⟨hne, hl, rfl⟩ := hsome id g hg
    rw [hl.seq] at hlt
    obtain ⟨y, hy⟩ : ∃ y, (logs id)[s]? = some y := ⟨_, List.getElem?_eq_getElem hlt⟩
    obtain ⟨a, h⟩ := y
    obtain ⟨d', -, -, ⟨-, hbad⟩ | hreplay⟩ := replayFrom_spec (d := ⟨rows, []⟩) (s := 0) (n := s) hl
      (by omega)
    · exact absurd rfl hbad
    rw [Nat.zero_add, List.take_zero] at hreplay
    have hl' := hl
    obtain ⟨g', hh⟩ := hl'
    obtain ⟨g₀, g₁, h₀, hkind, happ, -⟩ := hh.accepted.act hs hy
    obtain ⟨x, hx, hat, hact⟩ := (hh.acts s _ hy).actOf_eq hd ((hrest id).lawful s _ hy).1
    refine ⟨_, x, a, h, congrArg Prod.fst hreplay, hat, hact,
      ⟨hkind, ⟨x, hx, hact⟩, g₁, h₀.eq ▸ happ⟩, fun b k hacc => ?_⟩
    obtain ⟨z, hz, hkey⟩ := key_le_of_accepted hl (hrest id) hs hlt.le hacc
    obtain rfl := Option.some.inj (hy.symm.trans hz)
    exact hkey
  · obtain ⟨hne, hl, rfl⟩ := hsome id g hg
    rw [← List.take_of_length_le (le_refl (logs id).length)] at hacc
    obtain ⟨z, hz, -⟩ := key_le_of_accepted hl (hrest id) (List.length_pos_iff.2 hne) le_rfl hacc
    rw [List.getElem?_eq_none le_rfl] at hz
    cases hz

end Agree

/-- **Hosts agree on a group's log.**  Two hosts that are offered the acts of a finite set
again and again, in whatever orders, each come to a pass that changes nothing, and hold the
same groups and acts behind it: from each `create` on the lowest act accepted at every place.
Their stores may remove acts or not, and tell what is dropped or not. -/
theorem hosts_agree {ops : GroupLogOps} {removes tells : Bool} {S : Set Bytes}
    {passes passes' : ℕ → List Bytes} (hS : S.Finite) (hd : Distinct ops.hash S)
    (hanswers : ∀ i, ops.hash.hash i ≠ none) (hcovers : Covers S passes)
    (hcovers' : Covers S passes') (hroom : HasRoom ops passes)
    (hroom' : HasRoom { ops with removes := removes, tells := tells } passes') :
    (∃ n, Quiet ops passes n) ∧
      (∃ n, Quiet { ops with removes := removes, tells := tells } passes' n) ∧
      ∀ n n', Quiet ops passes n →
        Quiet { ops with removes := removes, tells := tells } passes' n' →
        SameLogs ops.hash (hostRun ops passes n)
            (hostRun { ops with removes := removes, tells := tells } passes' n') ∧
          LowestKept ops S (hostRun ops passes n) := by
  let ops' : GroupLogOps := { ops with removes := removes, tells := tells }
  refine ⟨exists_quiet hS hd hanswers hcovers hroom,
    @exists_quiet ops' S passes' hS hd hanswers hcovers' hroom', fun n n' hquiet hquiet' => ?_⟩
  have hrest := atRest_of_quiet hd hanswers hcovers hroom hquiet
  have hsim := sim_host hd hanswers hcovers hroom n
  have hrest' := @atRest_of_quiet ops' S passes' hd hanswers hcovers' hroom' n' hquiet'
  have hsim' := @sim_host ops' S passes' hd hanswers hcovers' hroom' n'
  refine ⟨sameLogs_of_holds hd fun id => ⟨_, hsim id, ?_⟩, hsim.lowestKept hd hrest⟩
  show HoldsLog _ _ _ id (asLog (hostLogs ops passes id n))
  rw [(hrest id).unique (hrest' id) (injOn_key hd)]
  exact hsim' id

/-- A `create` and two acts behind it, of which the fork is the lower, in two orders. -/
def threeActs : List Bytes := [bytesOf createAct, bytesOf addAct, bytesOf forkAct]

/-- Two hosts agree on them. -/
theorem three_agree :
    (∃ n, Quiet plainOps (fun _ => threeActs) n) ∧
      (∃ n, Quiet { plainOps with removes := false, tells := false }
        (fun _ => threeActs.reverse) n) ∧
      ∀ n n', Quiet plainOps (fun _ => threeActs) n →
        Quiet { plainOps with removes := false, tells := false } (fun _ => threeActs.reverse) n' →
        SameLogs plainOps.hash (hostRun plainOps (fun _ => threeActs) n)
            (hostRun { plainOps with removes := false, tells := false }
              (fun _ => threeActs.reverse) n') ∧
          LowestKept plainOps (offeredIn forkCalls) (hostRun plainOps (fun _ => threeActs) n) := by
  have hmem : ∀ x, x ∈ threeActs ↔ x ∈ offeredIn forkCalls := fun x => by
    simp only [threeActs, offeredIn, forkCalls, stoppedFork, List.mem_cons, List.not_mem_nil,
      or_false, Set.mem_ofPred_eq, exists_eq_or_imp, exists_eq_left, eq_comm]
  have hroom : ∀ x ∈ threeActs, ∀ removes tells rows,
      RoomFor { plainOps with removes := removes, tells := tells } rows ⟨x, []⟩ := by
    intro x hx removes tells rows
    have hacts : ∃ a h, actOf plainOps x = some (a, h) ∧ a.seq + 1 < 2 ^ 32 := by
      simp only [threeActs, List.mem_cons, List.not_mem_nil, or_false] at hx
      rcases hx with rfl | rfl | rfl
      · exact ⟨_, _, actOf_create, by decide⟩
      · exact ⟨_, _, actOf_add, by decide⟩
      · exact ⟨_, _, actOf_fork, by decide⟩
    obtain ⟨a, h, hact, hseq⟩ := hacts
    exact (@findsGroup_answered { plainOps with removes := removes, tells := tells } rows x a h
      hact hseq).room
  refine @hosts_agree plainOps false false (offeredIn forkCalls) (fun _ => threeActs)
    (fun _ => threeActs.reverse) ?_ distinct_fork (fun _ => Option.some_ne_none _) (fun _ => hmem)
    (fun _ x => List.mem_reverse.trans (hmem x)) (fun _ pre x hle => ?_) (fun _ pre x hle => ?_)
  · exact threeActs.finite_toSet.subset fun x hx => (hmem x).2 hx
  · exact hroom x (hle.subset (List.mem_append_right _ (List.mem_singleton_self x))) true true _
  · exact hroom x (List.mem_reverse.1
      (hle.subset (List.mem_append_right _ (List.mem_singleton_self x)))) false false _

end Groups
end Fuzznet
