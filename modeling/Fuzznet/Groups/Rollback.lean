/-
# A group's log rolled back

A store is taken through offers, its operations ending as each call says.  Whatever fails, it
holds of every group a log or nothing (`storeOk_run`), as long as no act is taken at the last
place a 32-bit count has (`RoomFor`): the count would then begin at 0 again.

The number of acts a store holds of a group falls only to a fork it lost (`LostFork`), in
every run of offers whose store calls may fail, but in two calls.  A `create` offered again
whose group is not found, because the store did not answer, begins the group again and leaves
it with one act (`create_rolls_back`); and the last place a 32-bit count has is one act too
far.  In every run without them (`FindsGroup`) no log is rolled back otherwise
(`rolled_back_only_lost`).
-/

import Fuzznet.Groups.OfferLog
import Fuzznet.Lib.Runs

namespace Fuzznet
namespace Groups

open Wire Lib

/-! ## Runs of offers -/

/-- An act offered, and how the store's operations end. -/
structure OfferCall where
  bytes : Bytes
  outcomes : List Outcome

/-- The rows behind a call. -/
def offerCall (ops : GroupLogOps) (rows : GroupRows) (c : OfferCall) : GroupRows :=
  (groupLogOffer ops ⟨rows, c.outcomes⟩ c.bytes).disk.rows

/-- The rows behind a run of calls, of a store empty before it. -/
def offerRun (ops : GroupLogOps) (calls : List OfferCall) : GroupRows :=
  calls.foldl (offerCall ops) ∅

/-- The acts offered in a run. -/
def offeredIn (calls : List OfferCall) : Set Bytes := {b | ∃ c ∈ calls, c.bytes = b}

/-- A group as it is stored. -/
def storedGroup (rows : GroupRows) (id : Bytes32) : Option Group :=
  (rows.lookup (.group id)).bind groupDecode

/-- A store that holds of every group a log or nothing. -/
def StoreOk (hash : HashOps) (B : Set Bytes) (rows : GroupRows) : Prop :=
  ∀ id, ∃ l, HoldsLog hash B rows id l

section Store

variable {ops : GroupLogOps} {B : Set Bytes} {rows : GroupRows} {id : Bytes32} {l : Option Log}
variable {log : Log} {a : GroupAct} {h : Bytes32} {c : OfferCall}

theorem HoldsLog.stored {hash : HashOps} (hl : HoldsLog hash B rows id l) :
    storedGroup rows id = l.map logGroup := by
  unfold storedGroup
  cases l with
  | none =>
    rw [show rows.lookup (.group id) = none from hl]
    rfl
  | some log =>
    obtain ⟨g, hh⟩ := hl
    rw [hh.group_row, Option.bind_some, groupDecode_encode hh.accepted.fits,
      hh.accepted.eq, Option.map_some]

theorem HoldsLog.seq {hash : HashOps} (hl : HoldsLog hash B rows id (some log)) :
    (logGroup log).seq = log.length := by
  obtain ⟨g, hh⟩ := hl
  rw [← hh.accepted.eq]
  exact hh.accepted.seq_eq hh.length_lt

/-- An act taken as the next, of a store that answers. -/
theorem takeNext_answered {g g' : Group} {z : Bytes32} {bytes : Bytes}
    (hz : actSubject ops.hash g'.id a.seq = some z) (happ : groupApply g a h = (.ok (), g')) :
    takeNext ops ⟨rows, []⟩ g a h bytes = (.ok .taken,
      ⟨(rows.insert (.act z) bytes).insert (.group g'.id) (groupEncode g'), []⟩) := by
  unfold takeNext
  rw [happ]
  dsimp only
  unfold fileNext actSave
  rw [hz]
  dsimp only
  rw [Disk.save_of_nil rfl]
  dsimp only
  unfold groupSave
  rw [Disk.save_of_nil rfl]

theorem storedGroup_insert {g : Group} (h : Fits g) :
    storedGroup (rows.insert (.group g.id) (groupEncode g)) g.id = some g := by
  rw [storedGroup, AList.lookup_insert, Option.bind_some, groupDecode_encode h]

/-- **An offer to a store that answers** is one to the log of its group. -/
theorem call_answered {x : Bytes} (hd : Distinct ops.hash B)
    (hanswers : ∀ i, ops.hash.hash i ≠ none) (hx : x ∈ B) (hact : actOf ops x = some (a, h))
    (hl : HoldsLog ops.hash B rows (actGroup a h) l)
    (hroom : a.kind ≠ .create → ∀ log ∈ l, a.seq = log.length → a.seq + 1 < 2 ^ 32) :
    (groupLogOffer ops ⟨rows, []⟩ x).answer = (offerLog l a h).1 ∧
      HoldsLog ops.hash B (offerCall ops rows ⟨x, []⟩) (actGroup a h) (offerLog l a h).2 ∧
      Apart ops.hash B (actGroup a h) rows (offerCall ops rows ⟨x, []⟩) := by
  obtain ⟨-, hapart, ⟨hans, hheld⟩ | ⟨hfail, -⟩⟩ :=
    offer_comes (d := ⟨rows, []⟩) hd hx hact hl hroom
  · exact ⟨hans, hheld, hapart⟩
  · rcases hfail with hne | ⟨i, hi⟩
    · exact absurd rfl hne
    · exact absurd hi (hanswers i)

/-- No act is taken at the last place a log has. -/
def RoomFor (ops : GroupLogOps) (rows : GroupRows) (c : OfferCall) : Prop :=
  ∀ a h g, actOf ops c.bytes = some (a, h) → a.kind ≠ .create →
    storedGroup rows a.group = some g → a.seq = g.seq → a.seq + 1 < 2 ^ 32

theorem RoomFor.room (hroom : RoomFor ops rows c) (hact : actOf ops c.bytes = some (a, h))
    (hl : HoldsLog ops.hash B rows (actGroup a h) l) (hkind : a.kind ≠ .create) :
    ∀ log ∈ l, a.seq = log.length → a.seq + 1 < 2 ^ 32 := by
  intro log hlog hseq
  obtain rfl : l = some log := hlog
  rw [show actGroup a h = a.group from if_neg hkind] at hl
  exact hroom a h (logGroup log) hact hkind hl.stored (hseq.trans hl.seq.symm)

/-- **What a call leaves**: of every group a log, as the offer comes to. -/
theorem StoreOk.call (hok : StoreOk ops.hash B rows) (hd : Distinct ops.hash B)
    (hb : c.bytes ∈ B) (hroom : RoomFor ops rows c) : StoreOk ops.hash B (offerCall ops rows c) := by
  intro id
  obtain ⟨l, hl⟩ := hok id
  unfold offerCall
  cases hact : actOf ops c.bytes with
  | none =>
    rw [offer_refused hact]
    exact ⟨l, hl⟩
  | some x =>
    obtain ⟨a, h⟩ := x
    obtain ⟨l₀, hl₀⟩ := hok (actGroup a h)
    obtain ⟨-, hapart, hcases⟩ := offer_comes (d := ⟨rows, c.outcomes⟩) hd hb hact hl₀
      (hroom.room hact hl₀)
    by_cases hid : id = actGroup a h
    · rw [hid]
      rcases hcases with ⟨-, hheld⟩ | ⟨-, l', hheld, -⟩
      · exact ⟨_, hheld⟩
      · exact ⟨_, hheld⟩
    · exact ⟨l, hapart id l hid hl⟩

theorem storeOk_empty (hash : HashOps) (B : Set Bytes) : StoreOk hash B ∅ :=
  fun _ => ⟨none, AList.lookup_empty _⟩

/-- A run whose calls all have room keeps a store that holds logs. -/
theorem storeOk_run {calls : List OfferCall} (hd : Distinct ops.hash (offeredIn calls))
    (hroom : ∀ pre c, pre ++ [c] <+: calls → RoomFor ops (offerRun ops pre) c) :
    ∀ pre, pre <+: calls → StoreOk ops.hash (offeredIn calls) (offerRun ops pre) := by
  intro pre hpre
  refine foldl_induction (P := StoreOk ops.hash (offeredIn calls)) (fun pre' c hle hok => ?_)
    (storeOk_empty _ _)
  have hin := hle.trans hpre
  exact hok.call hd ⟨c, hin.subset (List.mem_append_right _ (List.mem_singleton_self c)), rfl⟩
    (hroom pre' c hin)

end Store

/-! ## What rolls a log back -/

/-- The fork a log loses: an act taken behind the stored acts before its place, of a hash lower
than that of the act stored there. -/
def LostFork (ops : GroupLogOps) (rows : GroupRows) (bytes : Bytes) (id : Bytes32) : Prop :=
  ∃ a h before next held there th, actOf ops bytes = some (a, h) ∧ actGroup a h = id ∧
    (replay ops.hash ⟨rows, []⟩ id a.seq).1 = .ok before ∧
    groupApply before a h = (.ok (), next) ∧ actAt ops.hash rows id a.seq = some held ∧
    actDecode held = some there ∧ actHash there ops.hash = some th ∧ h.toNat < th.toNat

/-- A call that rolls no log back but to a fork lost. -/
def NotRolledBack (ops : GroupLogOps) (rows : GroupRows) (c : OfferCall) : Prop :=
  ∀ id g, storedGroup rows id = some g → ∃ g', storedGroup (offerCall ops rows c) id = some g' ∧
    (g'.seq < g.seq → LostFork ops rows c.bytes id)

/-- A `create` offered again finds its group, and no act is one too many. -/
structure FindsGroup (ops : GroupLogOps) (rows : GroupRows) (c : OfferCall) : Prop where
  answered : ∀ a h, actOf ops c.bytes = some (a, h) → a.kind = .create →
    rows.lookup (.group h) ≠ none → c.outcomes.headD .done = .done
  room : RoomFor ops rows c

section Rollback

variable {ops : GroupLogOps} {B : Set Bytes} {rows : GroupRows} {c : OfferCall} {log log' : Log}
variable {a : GroupAct} {h : Bytes32} {there : GroupAct × Bytes32} {next : Group}

theorem Won.lost (hwon : Won log a h there next) (hact : actOf ops c.bytes = some (a, h))
    (hh : HoldsLog ops.hash B rows (actGroup a h) (some log)) :
    LostFork ops rows c.bytes (actGroup a h) := by
  have hlt : a.seq < log.length := by
    by_contra hge
    have hx := hwon.there_eq
    rw [List.getElem?_eq_none (not_lt.1 hge)] at hx
    cases hx
  obtain ⟨d', -, -, ⟨-, hbad⟩ | hreplay⟩ := replayFrom_spec (d := ⟨rows, []⟩) (s := 0)
    (n := a.seq) hh (by omega)
  · exact absurd rfl hbad
  rw [Nat.zero_add, List.take_zero] at hreplay
  obtain ⟨g, hheld⟩ := hh
  obtain ⟨held, -, hat, hdecode, hhash⟩ := hheld.acts a.seq there hwon.there_eq
  exact ⟨a, h, _, next, held, there.1, there.2, hact, rfl, congrArg Prod.fst hreplay,
    hwon.applied, hat, hdecode, hhash, hwon.lower⟩

/-- An offer shortens a log only by a fork it wins, or a `create` that begins it again. -/
theorem OfferStep.shorter {found : Prop} {l' : Option Log}
    (hstep : OfferStep (some log) a h found l') : ∃ log', l' = some log' ∧
      (log'.length < log.length →
        (∃ there next, Won log a h there next) ∨ a.kind = .create ∧ ¬found) := by
  rcases hstep with rfl | rfl | ⟨hreplaced, rfl⟩ | ⟨hkind, -, hnot, rfl⟩
  · exact ⟨log, rfl, fun hlt => absurd hlt (lt_irrefl _)⟩
  · rcases offerLog_cases (some log) a h with
      ⟨heq, -⟩ | ⟨hnone, -⟩ | ⟨log₀, g, hlog, -, -, -, heq⟩ | ⟨log₀, there, next, hlog, hwon, heq⟩
    · exact ⟨log, heq, fun hlt => absurd hlt (lt_irrefl _)⟩
    · cases hnone
    · obtain rfl := Option.some.inj hlog
      refine ⟨_, by rw [heq], fun hlt => ?_⟩
      rw [List.length_append] at hlt
      omega
    · obtain rfl := Option.some.inj hlog
      exact ⟨_, by rw [heq], fun _ => .inl ⟨there, next, hwon⟩⟩
  · rcases offerLog_cases (some log) a h with
      ⟨-, -, hne⟩ | ⟨hnone, -⟩ | ⟨log₀, g, -, -, -, -, heq⟩ | ⟨log₀, there, next, hlog, hwon, -⟩
    · exact absurd hreplaced hne
    · cases hnone
    · rw [heq] at hreplaced
      cases hreplaced
    · obtain rfl := Option.some.inj hlog
      exact ⟨_, rfl, fun _ => .inl ⟨there, next, hwon⟩⟩
  · exact ⟨_, rfl, fun _ => .inr ⟨hkind, hnot⟩⟩

/-- One call rolls no log back but to a fork lost, where a `create` finds its group. -/
theorem StoreOk.notRolledBack (hok : StoreOk ops.hash B rows) (hd : Distinct ops.hash B)
    (hb : c.bytes ∈ B) (hfinds : FindsGroup ops rows c) : NotRolledBack ops rows c := by
  intro id g hstored
  obtain ⟨l, hl⟩ := hok id
  rw [hl.stored] at hstored
  obtain ⟨log, rfl, rfl⟩ := Option.map_eq_some_iff.1 hstored
  unfold offerCall
  cases hact : actOf ops c.bytes with
  | none =>
    rw [offer_refused hact]
    exact ⟨_, hl.stored, fun hlt => absurd hlt (lt_irrefl _)⟩
  | some x =>
    obtain ⟨a, h⟩ := x
    obtain ⟨l₀, hl₀⟩ := hok (actGroup a h)
    obtain ⟨-, hapart, hcases⟩ := offer_comes (d := ⟨rows, c.outcomes⟩) hd hb hact hl₀
      (hfinds.room.room hact hl₀)
    by_cases hid : id = actGroup a h
    · subst hid
      have hstep : ∃ l', HoldsLog ops.hash B
          (groupLogOffer ops ⟨rows, c.outcomes⟩ c.bytes).disk.rows (actGroup a h) l' ∧
          OfferStep (some log) a h ((⟨rows, c.outcomes⟩ : GroupDisk).next = .done) l' := by
        obtain ⟨-, -, hcases'⟩ := offer_comes (d := ⟨rows, c.outcomes⟩) hd hb hact hl
          (hfinds.room.room hact hl)
        rcases hcases' with ⟨-, hheld⟩ | ⟨-, l', hheld, hstep⟩
        · exact ⟨_, hheld, .inr (.inl rfl)⟩
        · exact ⟨l', hheld, hstep⟩
      obtain ⟨l', hheld, hstep⟩ := hstep
      obtain ⟨log', rfl, hshort⟩ := hstep.shorter
      refine ⟨_, hheld.stored, fun hlt => ?_⟩
      rw [hheld.seq, hl.seq] at hlt
      rcases hshort hlt with ⟨there, next, hwon⟩ | ⟨hkind, hnot⟩
      · exact hwon.lost hact hl
      · refine absurd (hfinds.answered a h hact hkind ?_) hnot
        rw [show actGroup a h = h from if_pos hkind] at hl
        obtain ⟨g, hh⟩ := hl
        rw [hh.group_row]
        simp
    · exact ⟨_, (hapart id _ hid hl).stored, fun hlt => absurd hlt (lt_irrefl _)⟩

end Rollback

/-- **A log is rolled back only by a fork it lost**, in every run in which a `create` offered
again finds its group. -/
theorem rolled_back_only_lost {ops : GroupLogOps} {calls : List OfferCall}
    (hd : Distinct ops.hash (offeredIn calls))
    (hfinds : ∀ pre c, pre ++ [c] <+: calls → FindsGroup ops (offerRun ops pre) c) :
    ∀ pre c, pre ++ [c] <+: calls → NotRolledBack ops (offerRun ops pre) c := by
  intro pre c hpre
  have hok := storeOk_run hd (fun pre c hle => (hfinds pre c hle).room) pre
    ((List.prefix_append pre [c]).trans hpre)
  exact hok.notRolledBack hd
    ⟨c, hpre.subset (List.mem_append_right _ (List.mem_singleton_self c)), rfl⟩
    (hfinds pre c hpre)

/-! ## A group begun again -/

/-- A hash for the runs on fixed acts: the last eight bytes, which end an act's signature, and
are the end of a group's id and a place. -/
def lastWord : HashOps := answering fun bs => BitVec.ofNat 256 (getBe bs (bs.length - 8) 8)

def plainOps : GroupLogOps := ⟨lastWord, acceptingSign, ⟨0⟩, true, true⟩

theorem lastWord_append (front : Bytes) {back : Bytes} (hlen : back.length = 8) :
    lastWord.hash (front ++ back) = some (BitVec.ofNat 256 (getBe back 0 8)) := by
  show some (BitVec.ofNat 256 (getBe _ ((front ++ back).length - 8) 8)) = _
  rw [List.length_append, hlen, Nat.add_sub_cancel, getBe_append_right le_rfl, Nat.sub_self]

theorem lastWord_place (id : Bytes32) (s : ℕ) :
    lastWord.hash (Session.bytes32 id ++ putBe 4 s) =
      some (BitVec.ofNat 256 (id.toNat % 256 ^ 4 * 256 ^ 4 + s % 256 ^ 4)) := by
  obtain ⟨front, -, heq⟩ := putBe_add 28 4 id.toNat
  rw [Session.bytes32, heq, List.append_assoc, lastWord_append front (by
    rw [List.length_append, length_putBe, length_putBe])]
  unfold getBe
  rw [List.drop_zero, List.take_of_length_le (by
    rw [List.length_append, length_putBe, length_putBe]), List.foldl_append, foldl_putBe,
    foldl_putBe, Nat.zero_mul, Nat.zero_add]

/-- An act's hash is the end of its signature. -/
theorem lastWord_act {a : GroupAct} {bs : Bytes} (h : actEncode a = some bs) :
    lastWord.hash bs = some (BitVec.ofNat 256 (a.sig.toNat % 256 ^ 8)) := by
  unfold actEncode at h
  cases hbody : actBody a actMax with
  | none =>
    rw [hbody] at h
    cases h
  | some body =>
    rw [hbody] at h
    dsimp only at h
    split at h
    · cases h
    obtain rfl := Option.some.inj h
    obtain ⟨front, -, heq⟩ := putBe_add 56 8 a.sig.toNat
    have hback := getBe_putBe 8 a.sig.toNat []
    rw [List.append_nil] at hback
    rw [heq, ← List.append_assoc, lastWord_append _ (length_putBe 8 _), hback]

/-- The group an act's bytes are of. -/
def groupOf (hash : HashOps) (b : Bytes) : Option Bytes32 :=
  (actDecode b).bind fun a => (actHash a hash).map (actGroup a)

/-- Acts of one group whose signatures end apart are told apart. -/
theorem distinct_lastWord {B : Set Bytes} {g : Bytes32}
    (hids : ∀ b ∈ B, groupOf lastWord b = some g) (hacts : lastWord.InjOn B) :
    Distinct lastWord B where
  acts := hacts
  places := by
    have hone : ∀ id ∈ offeredIds lastWord B, id = g := by
      rintro id ⟨b, hb, a, h, ha, hh, rfl⟩
      have hid := hids b hb
      unfold groupOf at hid
      rw [ha, Option.bind_some, hh] at hid
      exact Option.some.inj hid
    rintro x ⟨id, hid, s, hs, rfl⟩ y ⟨id', hid', s', hs', rfl⟩ d hx hy
    obtain rfl := hone id hid
    obtain rfl := hone id' hid'
    rw [lastWord_place] at hx hy
    have hsame := congrArg BitVec.toNat (Option.some.inj (hx.trans hy.symm))
    rw [BitVec.toNat_ofNat, BitVec.toNat_ofNat] at hsame
    obtain rfl : s = s' := by omega
    rfl

/-- An act as it is offered. -/
@[irreducible] def bytesOf (a : GroupAct) : Bytes := (actEncode a).getD []

theorem plainOps_answers (i : Bytes) : plainOps.hash.hash i ≠ none := Option.some_ne_none _

theorem hash_of_actOf {x : Bytes} {a : GroupAct} {h : Bytes32} (hact : actOf plainOps x = some (a, h)) :
    lastWord.hash x = some h ∧ groupOf lastWord x = some (actGroup a h) := by
  obtain ⟨hdecode, -, hhash⟩ := actOf_spec hact
  refine ⟨(hash_of_decode hdecode).symm.trans hhash, ?_⟩
  unfold groupOf
  rw [hdecode, Option.bind_some, show actHash a lastWord = some h from hhash]
  rfl

/-- The acts of a run, of one group and each of a hash of its own, are told apart. -/
theorem distinct_calls {calls : List OfferCall} {acts : Log} {g : Bytes32}
    (hcalls : ∀ c ∈ calls, c.bytes ∈ acts.map fun x => bytesOf x.1)
    (hacts : ∀ x ∈ acts, actOf plainOps (bytesOf x.1) = some x ∧ actGroup x.1 x.2 = g)
    (hapart : (acts.map Prod.snd).Nodup) : Distinct lastWord (offeredIn calls) := by
  refine distinct_lastWord (g := g) ?_ ?_
  · rintro b ⟨c, hc, rfl⟩
    obtain ⟨x, hx, hbytes⟩ := List.mem_map.1 (hcalls c hc)
    obtain ⟨hact, hgroup⟩ := hacts x hx
    rw [← hbytes, (hash_of_actOf hact).2, hgroup]
  · rintro b ⟨c, hc, rfl⟩ b' ⟨c', hc', rfl⟩ d hd hd'
    obtain ⟨x, hx, hbytes⟩ := List.mem_map.1 (hcalls c hc)
    obtain ⟨y, hy, hbytes'⟩ := List.mem_map.1 (hcalls c' hc')
    rw [← hbytes, (hash_of_actOf (hacts x hx).1).1] at hd
    rw [← hbytes', (hash_of_actOf (hacts y hy).1).1] at hd'
    rw [← hbytes, ← hbytes', List.inj_on_of_nodup_map hapart hx hy
      (Option.some.inj (hd.trans hd'.symm))]

/-- An act by key 1, without a payload, has a body. -/
theorem actBody_plain {a : GroupAct} (hpayload : a.payload = [])
    (hsigner : a.signer = plainDevice 1 1) :
    ∃ body, actBody a actMax = some body ∧ body.length = 299 := by
  obtain ⟨signer, hdevice, hlen⟩ : ∃ signer,
      deviceEncode (plainDevice 1 1) (actMax - actHeadLen - 0) = some signer ∧
        signer.length = 175 := ⟨_, rfl, rfl⟩
  unfold actBody
  rw [hpayload, hsigner, if_neg (by decide), List.length_nil, hdevice]
  dsimp only
  rw [if_neg (by omega)]
  refine ⟨_, rfl, ?_⟩
  simp only [List.length_cons, List.length_append, length_putBe, Session.length_bytes32,
    List.length_nil, hlen]

/-- Such an act is offered as it is, under the end of its signature. -/
theorem actOf_plain {a : GroupAct} {n : ℕ} (hpayload : a.payload = [])
    (hsigner : a.signer = plainDevice 1 1) (hmade : a.madeAt = 0) (hseq : a.seq < 256 ^ 4)
    (hvalue : a.value < 256 ^ 8) (hsig : a.sig = BitVec.ofNat 512 n) (hn : n < 256 ^ 8) :
    actOf plainOps (bytesOf a) = some (a, BitVec.ofNat 256 n) := by
  obtain ⟨body, hbody, hlen⟩ := actBody_plain hpayload hsigner
  have hroom : 4284 ≤ actMax := by decide
  have hencode : actEncode a = some (body ++ putBe 64 a.sig.toNat) := by
    unfold actEncode
    rw [hbody]
    dsimp only
    rw [if_neg (by omega)]
  have hdecode : actDecode (body ++ putBe 64 a.sig.toNat) = some a := by
    refine actDecode_encode hencode hseq hvalue ?_ ?_
    · rw [hsigner]
      decide
    · rw [hsigner]
      decide
  have hverify : actVerify a plainOps.sign plainOps.member = true := by
    unfold actVerify
    rw [hsigner, hmade, hbody, show deviceVerify (plainDevice 1 1) plainOps.sign plainOps.member 0
      = true by decide]
    rfl
  have hhash : actHash a plainOps.hash = some (BitVec.ofNat 256 n) := by
    have hlow : a.sig.toNat % 256 ^ 8 = n := by
      rw [hsig, BitVec.toNat_ofNat]
      omega
    unfold actHash
    rw [hencode, ← hlow]
    exact lastWord_act hencode
  unfold actOf bytesOf
  rw [hencode, Option.getD_some, hdecode, Option.bind_some, if_pos hverify, hhash]
  rfl

/-- The group of 1, and member 2 added. -/
def createAct : GroupAct := { plainAct .create 0 0 0 0 1 with sig := 11 }
def addAct : GroupAct := { plainAct .add 1 11 11 2 1 with sig := 12 }

theorem actOf_create : actOf plainOps (bytesOf createAct) = some (createAct, 11) :=
  actOf_plain rfl rfl rfl (by decide) (by decide) rfl (by decide)

theorem actOf_add : actOf plainOps (bytesOf addAct) = some (addAct, 12) :=
  actOf_plain rfl rfl rfl (by decide) (by decide) rfl (by decide)

/-- A call whose store answers, of an act with places behind it. -/
theorem findsGroup_answered {ops : GroupLogOps} {rows : GroupRows} {bytes : Bytes} {a : GroupAct}
    {h : Bytes32} (hact : actOf ops bytes = some (a, h)) (hseq : a.seq + 1 < 2 ^ 32) :
    FindsGroup ops rows ⟨bytes, []⟩ where
  answered := fun _ _ _ _ _ => rfl
  room := fun a' h' g hact' _ _ _ => by
    obtain ⟨rfl, -⟩ := Prod.mk.inj (Option.some.inj (hact.symm.trans hact'))
    exact hseq

/-- A `create` offered again, of a store that answers. -/
def pairCalls : List OfferCall :=
  [⟨bytesOf createAct, []⟩, ⟨bytesOf addAct, []⟩, ⟨bytesOf createAct, []⟩]

theorem distinct_pair : Distinct lastWord (offeredIn pairCalls) := by
  refine @distinct_calls _ [(createAct, 11), (addAct, 12)] 11 ?_ (fun x hx => ?_) (by decide)
  · simp [pairCalls]
  · simp only [List.mem_cons, List.not_mem_nil, or_false] at hx
    rcases hx with rfl | rfl
    · exact ⟨actOf_create, rfl⟩
    · exact ⟨actOf_add, rfl⟩

/-- It finds its group. -/
theorem pair_not_rolled_back : NotRolledBack plainOps
    (offerRun plainOps [⟨bytesOf createAct, []⟩, ⟨bytesOf addAct, []⟩])
    ⟨bytesOf createAct, []⟩ := by
  refine @rolled_back_only_lost plainOps pairCalls distinct_pair
    ( forall_prefix fun n hn => ?_) _ _ List.prefix_rfl
  have hfinds : ∀ c ∈ pairCalls, ∀ rows, FindsGroup plainOps rows c := by
    intro c hc rows
    simp only [pairCalls, List.mem_cons, List.not_mem_nil, or_false] at hc
    rcases hc with rfl | rfl | rfl
    · exact findsGroup_answered actOf_create (by decide)
    · exact findsGroup_answered actOf_add (by decide)
    · exact findsGroup_answered actOf_create (by decide)
  exact hfinds _ (List.getElem_mem hn) _

/-- The two acts, by their log. -/
theorem pair_logs : (offerLog none createAct 11).2 = some [(createAct, 11)] ∧
    (offerLog (some [(createAct, 11)]) addAct 12).2 = some [(createAct, 11), (addAct, 12)] ∧
    groupApply blank createAct 11 = (.ok (), logGroup [(createAct, 11)]) ∧
    (some (logGroup [(createAct, 11)])).map (fun g => (g.seq, g.members)) = some (1, [1]) ∧
    (some (logGroup [(createAct, 11), (addAct, 12)])).map (fun g => (g.seq, g.members)) =
      some (2, [1, 2]) := by
  decide +kernel

/-- Both acts are held behind the first two calls. -/
theorem pair_held : HoldsLog lastWord (offeredIn pairCalls)
    (offerRun plainOps [⟨bytesOf createAct, []⟩, ⟨bytesOf addAct, []⟩]) 11
    (some [(createAct, 11), (addAct, 12)]) := by
  obtain ⟨-, hone, -⟩ := call_answered (l := none) distinct_pair plainOps_answers
    (show _ ∈ offeredIn pairCalls from ⟨_, .head _, rfl⟩) actOf_create (AList.lookup_empty _) fun _ _ hlog => by cases hlog
  rw [pair_logs.1] at hone
  obtain ⟨-, htwo, -⟩ := call_answered distinct_pair plainOps_answers
    (show _ ∈ offeredIn pairCalls from ⟨_, .tail _ (.head _), rfl⟩) actOf_add hone fun _ _ _ _ => by decide
  rwa [pair_logs.2.1] at htwo

/-- What is left where the store does not answer a `create`: the group it begins. -/
theorem create_begins (rows : GroupRows) :
    storedGroup (offerCall plainOps rows ⟨bytesOf createAct, [.refused]⟩) 11 =
      some (logGroup [(createAct, 11)]) := by
  have happ := pair_logs.2.2.1
  unfold offerCall groupLogOffer
  rw [actOf_create]
  dsimp only
  rw [if_pos (show createAct.kind = .create from rfl), show logGet ⟨rows, [.refused]⟩ 11 = (.error .absent, ⟨rows, []⟩) from rfl]
  dsimp only
  rw [takeNext_answered rfl happ]
  exact storedGroup_insert (Accepted.create rfl happ).fits

/-- **A `create` that does not find its group begins it again**: of two acts one is left, and
member 2 is none any more. -/
theorem create_rolls_back :
    (storedGroup (offerRun plainOps [⟨bytesOf createAct, []⟩, ⟨bytesOf addAct, []⟩]) 11).map
      (fun g => (g.seq, g.members)) = some (2, [1, 2]) ∧
    (storedGroup (offerRun plainOps [⟨bytesOf createAct, []⟩, ⟨bytesOf addAct, []⟩,
      ⟨bytesOf createAct, [.refused]⟩]) 11).map (fun g => (g.seq, g.members)) = some (1, [1]) ∧
    ¬NotRolledBack plainOps
      (offerRun plainOps [⟨bytesOf createAct, []⟩, ⟨bytesOf addAct, []⟩])
      ⟨bytesOf createAct, [.refused]⟩ := by
  obtain ⟨g, hh⟩ := pair_held
  have hstored := pair_held.stored
  have hafter := create_begins (offerRun plainOps [⟨bytesOf createAct, []⟩, ⟨bytesOf addAct, []⟩])
  refine ⟨?_, ?_, fun hnot => ?_⟩
  · rw [hstored]
    exact pair_logs.2.2.2.2
  · rw [show offerRun plainOps [_, _, _] = offerCall plainOps (offerRun plainOps
      [⟨bytesOf createAct, []⟩, ⟨bytesOf addAct, []⟩]) ⟨bytesOf createAct, [.refused]⟩ from rfl,
      hafter]
    exact pair_logs.2.2.2.1
  obtain ⟨g', hg', hlost⟩ := hnot 11 _ hstored
  obtain rfl := Option.some.inj (hafter.symm.trans hg')
  -- the act stored at its place is the `create` itself, of no hash above its own
  obtain ⟨a, h, -, -, held, there, th, hact, -, -, -, hat, hdecode, hhash, hlower⟩ :=
    hlost (by
      rw [(Prod.mk.inj (Option.some.inj pair_logs.2.2.2.1)).1,
        (Prod.mk.inj (Option.some.inj pair_logs.2.2.2.2)).1]
      decide)
  obtain ⟨rfl, rfl⟩ := Prod.mk.inj (Option.some.inj (actOf_create.symm.trans hact))
  obtain ⟨held', -, hat', hdecode', hhash'⟩ := hh.acts 0 (createAct, 11) rfl
  obtain rfl := Option.some.inj (hat'.symm.trans hat)
  obtain rfl := Option.some.inj (hdecode'.symm.trans hdecode)
  obtain rfl := Option.some.inj (hhash'.symm.trans hhash)
  exact lt_irrefl _ hlower

end Groups
end Fuzznet
