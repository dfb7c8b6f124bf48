/-
# A group and the acts behind it

A stored group is the one its stored acts say (`Replayed`), however the offers of a run were
cut short.  An act offered again behind one cut short is answered as before that offer or as
behind the whole of it, with one cut between (`Again`): a fork won whose group is rolled back
and whose act is not filed yet.  Any act of that place is then the next, so that the act the
fork would have dropped is taken where it had lost (`dropped_taken`); the fork offered again
ends where it would have.
-/

import Fuzznet.Groups.Rollback

namespace Fuzznet
namespace Groups

open Wire Lib

/-- Every group stored is the one its stored acts say. -/
def Replayed (hash : HashOps) (rows : GroupRows) : Prop :=
  ∀ id bytes, rows.lookup (.group id) = some bytes → ∃ g, bytes = groupEncode g ∧
    groupDecode bytes = some g ∧ g.id = id ∧ (replay hash ⟨rows, []⟩ id g.seq).1 = .ok g

/-- The answer to an act, of a store whose calls are answered. -/
def answer (ops : GroupLogOps) (rows : GroupRows) (bytes : Bytes) : Except GroupLogErr Offer :=
  (groupLogOffer ops ⟨rows, []⟩ bytes).answer

/-- What such an offer leaves. -/
def offered (ops : GroupLogOps) (rows : GroupRows) (bytes : Bytes) : GroupRows :=
  offerCall ops rows ⟨bytes, []⟩

/-- Two stores of the same groups, with the same acts at the same places. -/
def SameLogs (hash : HashOps) (rows rows' : GroupRows) : Prop :=
  ∀ id, storedGroup rows' id = storedGroup rows id ∧
    ∀ g, storedGroup rows id = some g → ∀ s < g.seq,
      actAt hash rows' id s = actAt hash rows id s

/-- The call won a fork and stopped with the log rolled back to its place, where its act,
offered again, is the next. -/
def StoppedRolledBack (ops : GroupLogOps) (rows : GroupRows) (c : OfferCall) : Prop :=
  answer ops rows c.bytes = .ok .replaced ∧
    answer ops (offerCall ops rows c) c.bytes = .ok .taken ∧
    ∃ a h, actOf ops c.bytes = some (a, h) ∧
      (storedGroup (offerCall ops rows c) a.group).map (·.seq) = some a.seq

/-- Acts offered again behind a call that may have been cut short. -/
structure Again (ops : GroupLogOps) (B : Set Bytes) (rows : GroupRows) (c : OfferCall) :
    Prop where
  answers : ∀ x ∈ B, RoomFor ops (offerCall ops rows c) ⟨x, []⟩ →
    answer ops (offerCall ops rows c) x = answer ops rows x ∨
      answer ops (offerCall ops rows c) x = answer ops (offered ops rows c.bytes) x ∨
      StoppedRolledBack ops rows c
  leaves : SameLogs ops.hash (offered ops rows c.bytes)
    (offered ops (offerCall ops rows c) c.bytes)

section Logs

variable {a : GroupAct} {h : Bytes32} {log pre : Log} {l l' : Option Log} {found : Prop}
variable {there : GroupAct × Bytes32} {next : Group}

/-- An act filed last is held, and offered again changes nothing. -/
theorem offerLog_filed (hkind : a.kind ≠ .create) (hseq : a.seq = pre.length) :
    (offerLog (some (pre ++ [(a, h)])) a h).2 = some (pre ++ [(a, h)]) := by
  unfold offerLog
  rw [if_neg hkind]
  dsimp only
  have hgap : ¬(pre ++ [(a, h)]).length < a.seq := by
    rw [List.length_append]
    omega
  have hthere : (pre ++ [(a, h)])[a.seq]? = some (a, h) := by
    rw [hseq]
    exact List.getElem?_concat_length
  rw [if_neg hgap, hthere]
  dsimp only
  rw [if_pos rfl]
  split <;> rfl

theorem Won.length_take (hwon : Won log a h there next) : (log.take a.seq).length = a.seq := by
  have hlt : a.seq < log.length := (List.getElem?_eq_some_iff.1 hwon.there_eq).1
  rw [List.length_take]
  omega

/-- **An offer made twice** leaves what the first left. -/
theorem offerLog_again (l : Option Log) (a : GroupAct) (h : Bytes32) :
    (offerLog (offerLog l a h).2 a h).2 = (offerLog l a h).2 := by
  rcases offerLog_cases l a h with
    ⟨hsame, -⟩ | ⟨-, hkind, -, heq⟩ | ⟨log, g, -, hkind, hseq, -, heq⟩ | ⟨log, there, next, -, hwon, heq⟩
  · rw [hsame, hsame]
  · rw [heq]
    unfold offerLog
    rw [if_pos hkind]
  · rw [heq]
    exact offerLog_filed hkind hseq
  · rw [heq]
    exact offerLog_filed hwon.kind hwon.length_take.symm

theorem Won.replaced (hwon : Won log a h there next) :
    offerLog (some log) a h = (.ok .replaced, some (log.take a.seq ++ [(a, h)])) := by
  have hlower := hwon.lower
  rw [offerLog_fork hwon.kind hwon.there_eq hwon.pos, hwon.applied,
    if_neg fun heq => absurd (congrArg BitVec.toNat heq) hlower.ne]
  dsimp only
  rw [if_neg (by omega)]

/-- An act accepted at the head of a log is taken. -/
theorem offerLog_head (hkind : a.kind ≠ .create) (hseq : a.seq = log.length)
    (happ : groupApply (logGroup log) a h = (.ok (), next)) :
    offerLog (some log) a h = (.ok .taken, some (log ++ [(a, h)])) := by
  unfold offerLog
  rw [if_neg hkind]
  dsimp only
  rw [if_neg (by omega), List.getElem?_eq_none hseq.ge]
  dsimp only
  rw [happ]

/-- A fork won, offered to the log rolled back to its place, is the next act. -/
theorem Won.taken (hwon : Won log a h there next) :
    offerLog (some (log.take a.seq)) a h = (.ok .taken, some (log.take a.seq ++ [(a, h)])) :=
  offerLog_head hwon.kind hwon.length_take.symm hwon.applied

/-- An act that is the next behind an offer of it was the next before it. -/
theorem offerLog_next {P : Prop} (hkind : a.kind ≠ .create)
    (hl : ∀ log ∈ l, a.seq = log.length → P) :
    ∀ log ∈ (offerLog l a h).2, a.seq = log.length → P := by
  intro log' hlog' hseq
  rcases offerLog_cases l a h with
    ⟨hsame, -⟩ | ⟨-, hcreate, -⟩ | ⟨log, g, -, -, hhead, -, heq⟩ | ⟨log, there, next, -, hwon, heq⟩
  · rw [hsame] at hlog'
    exact hl log' hlog' hseq
  · exact absurd hcreate hkind
  · rw [heq, Option.mem_some_iff] at hlog'
    rw [← hlog', List.length_append, List.length_singleton] at hseq
    omega
  · have hlen := hwon.length_take
    rw [heq, Option.mem_some_iff] at hlog'
    rw [← hlog', List.length_append, List.length_singleton] at hseq
    omega

/-- What an offer cut short leaves: what was there, the whole, or the log rolled back. -/
theorem OfferStep.cut (hstep : OfferStep l a h found l')
    (hfound : a.kind = .create → l ≠ none → found) :
    l' = l ∨ l' = (offerLog l a h).2 ∨ ∃ log there next, l = some log ∧ Won log a h there next ∧
      l' = some (log.take a.seq) := by
  rcases hstep with rfl | rfl | ⟨hreplaced, rfl⟩ | ⟨hkind, hne, hnot, -⟩
  · exact .inl rfl
  · exact .inr (.inl rfl)
  · rcases offerLog_cases l a h with
      ⟨-, -, hne⟩ | ⟨-, -, -, heq⟩ | ⟨log, g, -, -, -, -, heq⟩ | ⟨log, there, next, rfl, hwon, -⟩
    · exact absurd hreplaced hne
    · rw [heq] at hreplaced
      cases hreplaced
    · rw [heq] at hreplaced
      cases hreplaced
    · exact .inr (.inr ⟨log, there, next, rfl, hwon, rfl⟩)
  · exact absurd (hfound hkind hne) hnot

end Logs

section Stores

variable {ops : GroupLogOps} {B : Set Bytes} {rows rows' : GroupRows} {id : Bytes32}
variable {l : Option Log} {c : OfferCall} {a : GroupAct} {h : Bytes32} {x : Bytes}

theorem SameLogs.refl (hash : HashOps) (rows : GroupRows) : SameLogs hash rows rows :=
  fun _ => ⟨rfl, fun _ _ _ _ => rfl⟩

/-- A log filed is filed by its bytes. -/
theorem Filed.at_eq {hash : HashOps} {s : ℕ} {y : GroupAct × Bytes32} (hd : Distinct hash B)
    (hf : Filed hash B rows id s y) (hf' : Filed hash B rows' id s y) :
    actAt hash rows' id s = actAt hash rows id s := by
  obtain ⟨bytes, hb, hat, hdecode, hhash⟩ := hf
  obtain ⟨bytes', hb', hat', hdecode', hhash'⟩ := hf'
  rw [hash_of_decode hdecode] at hhash
  rw [hash_of_decode hdecode'] at hhash'
  rw [hat, hat', hd.acts bytes hb bytes' hb' _ hhash hhash']

/-- Two stores that hold the same logs. -/
theorem sameLogs_of_holds {hash : HashOps} (hd : Distinct hash B)
    (hsame : ∀ id, ∃ l, HoldsLog hash B rows id l ∧ HoldsLog hash B rows' id l) :
    SameLogs hash rows rows' := by
  intro id
  obtain ⟨l, hl, hl'⟩ := hsame id
  refine ⟨hl'.stored.trans hl.stored.symm, fun g hg s hs => ?_⟩
  rw [hl.stored] at hg
  obtain ⟨log, rfl, rfl⟩ := Option.map_eq_some_iff.1 hg
  rw [hl.seq] at hs
  obtain ⟨g, hh⟩ := hl
  obtain ⟨g', hh'⟩ := hl'
  have hx : log[s]? = some log[s] := List.getElem?_eq_getElem hs
  exact (hh.acts s _ hx).at_eq hd (hh'.acts s _ hx)

/-- A store that holds logs holds the groups they say. -/
theorem StoreOk.replayed {hash : HashOps} (hok : StoreOk hash B rows) : Replayed hash rows := by
  intro id bytes hrow
  obtain ⟨l, hl⟩ := hok id
  cases l with
  | none => exact absurd (hrow.symm.trans hl) (by simp)
  | some log =>
    obtain ⟨g, hh⟩ := hl
    have hseq := hh.accepted.seq_eq hh.length_lt
    refine ⟨g, Option.some.inj (hrow.symm.trans hh.group_row), ?_, hh.group_id, ?_⟩
    · rw [Option.some.inj (hrow.symm.trans hh.group_row)]
      exact groupDecode_encode hh.accepted.fits
    · obtain ⟨d', -, -, ⟨-, hbad⟩ | hreplay⟩ := replayFrom_spec (d := ⟨rows, []⟩) (s := 0)
        (n := g.seq) (show HoldsLog hash B rows id (some log) from ⟨g, hh⟩) (by omega)
      · exact absurd rfl hbad
      rw [Nat.zero_add, List.take_zero, List.take_of_length_le hseq.ge,
        ← hh.accepted.eq] at hreplay
      exact congrArg Prod.fst hreplay

/-- **An offer to a store that answers** is one to the log of its group. -/
theorem offer_answered (hd : Distinct ops.hash B) (hanswers : ∀ i, ops.hash.hash i ≠ none)
    (hx : x ∈ B) (hact : actOf ops x = some (a, h))
    (hl : HoldsLog ops.hash B rows (actGroup a h) l)
    (hroom : a.kind ≠ .create → ∀ log ∈ l, a.seq = log.length → a.seq + 1 < 2 ^ 32) :
    answer ops rows x = (offerLog l a h).1 ∧
      HoldsLog ops.hash B (offered ops rows x) (actGroup a h) (offerLog l a h).2 ∧
      Apart ops.hash B (actGroup a h) rows (offered ops rows x) :=
  call_answered hd hanswers hx hact hl hroom

theorem answer_refused (hact : actOf ops x = none) (rows : GroupRows) :
    answer ops rows x = .error .refused := by
  unfold answer
  rw [offer_refused hact]
  rfl

/-- Two stores with one log of an act's group answer the act alike. -/
theorem answer_eq (hd : Distinct ops.hash B) (hanswers : ∀ i, ops.hash.hash i ≠ none)
    (hx : x ∈ B) (hact : actOf ops x = some (a, h)) (hroom : RoomFor ops rows ⟨x, []⟩)
    (hl : HoldsLog ops.hash B rows (actGroup a h) l)
    (hl' : HoldsLog ops.hash B rows' (actGroup a h) l) : answer ops rows x = answer ops rows' x :=
  (offer_answered hd hanswers hx hact hl (hroom.room hact hl)).1.trans
    (offer_answered hd hanswers hx hact hl' (hroom.room hact hl)).1.symm

/-- What a call comes to, beside what it would have: the log of its act's group cut, and the
others as they were. -/
theorem call_cut (hd : Distinct ops.hash B) (hb : c.bytes ∈ B)
    (hfinds : FindsGroup ops rows c) (hact : actOf ops c.bytes = some (a, h))
    (hl : HoldsLog ops.hash B rows (actGroup a h) l) :
    ∃ l', HoldsLog ops.hash B (offerCall ops rows c) (actGroup a h) l' ∧
      Apart ops.hash B (actGroup a h) rows (offerCall ops rows c) ∧
      (l' = l ∨ l' = (offerLog l a h).2 ∨
        ∃ log there next, l = some log ∧ Won log a h there next ∧ l' = some (log.take a.seq)) := by
  obtain ⟨-, hapart, ⟨-, hheld⟩ | ⟨-, l', hheld, hstep⟩⟩ :=
    offer_comes (d := ⟨rows, c.outcomes⟩) hd hb hact hl (hfinds.room.room hact hl)
  · exact ⟨_, hheld, hapart, .inr (.inl rfl)⟩
  · refine ⟨l', hheld, hapart, hstep.cut fun hkind hne => hfinds.answered a h hact hkind ?_⟩
    rw [show actGroup a h = h from if_pos hkind] at hl
    cases l with
    | none => exact absurd rfl hne
    | some log =>
      obtain ⟨g, hh⟩ := hl
      rw [hh.group_row]
      simp

/-- A fork's act has places behind it. -/
theorem Won.room {hash : HashOps} {log : Log} {there : GroupAct × Bytes32} {next : Group}
    (hwon : Won log a h there next) (hl : HoldsLog hash B rows id (some log)) :
    a.seq + 1 < 2 ^ 32 := by
  obtain ⟨g, hh⟩ := hl
  have hlt := (List.getElem?_eq_some_iff.1 hwon.there_eq).1
  have hlen := hh.length_lt
  omega

/-- A fork won and stopped with the log rolled back. -/
theorem Won.stopped {log : Log} {there : GroupAct × Bytes32} {next : Group}
    (hwon : Won log a h there next) (hd : Distinct ops.hash B)
    (hanswers : ∀ i, ops.hash.hash i ≠ none) (hb : c.bytes ∈ B)
    (hact : actOf ops c.bytes = some (a, h))
    (hl : HoldsLog ops.hash B rows (actGroup a h) (some log))
    (hl' : HoldsLog ops.hash B (offerCall ops rows c) (actGroup a h) (some (log.take a.seq))) :
    StoppedRolledBack ops rows c := by
  have hroom := hwon.room hl
  refine ⟨?_, ?_, a, h, hact, ?_⟩
  · rw [(offer_answered hd hanswers hb hact hl fun _ _ _ _ => hroom).1, hwon.replaced]
  · rw [(offer_answered hd hanswers hb hact hl' fun _ _ _ _ => hroom).1, hwon.taken]
  · rw [show actGroup a h = a.group from if_neg hwon.kind] at hl'
    rw [hl'.stored, Option.map_some, Option.map_some, hl'.seq, hwon.length_take]

/-- One call, and what is offered again behind it. -/
theorem StoreOk.again (hok : StoreOk ops.hash B rows) (hd : Distinct ops.hash B)
    (hanswers : ∀ i, ops.hash.hash i ≠ none) (hb : c.bytes ∈ B)
    (hfinds : FindsGroup ops rows c) : Again ops B rows c := by
  cases hact : actOf ops c.bytes with
  | none =>
    have hcall : ∀ outcomes, offerCall ops rows ⟨c.bytes, outcomes⟩ = rows := fun outcomes => by
      unfold offerCall
      rw [offer_refused hact]
      rfl
    have hcut : offerCall ops rows c = rows := hcall c.outcomes
    refine ⟨fun x _ _ => .inl (by rw [hcut]), ?_⟩
    rw [hcut]
    exact SameLogs.refl _ _
  | some y =>
    obtain ⟨a, h⟩ := y
    obtain ⟨l, hl⟩ := hok (actGroup a h)
    obtain ⟨l', hl', hapart, hcut⟩ := call_cut hd hb hfinds hact hl
    obtain ⟨hans, hwhole, hapart'⟩ := offer_answered hd hanswers hb hact hl
      (hfinds.room.room hact hl)
    refine ⟨fun x hx hroom => ?_, sameLogs_of_holds hd fun id => ?_⟩
    · cases hactx : actOf ops x with
      | none => exact .inl (by rw [answer_refused hactx, answer_refused hactx])
      | some z =>
        obtain ⟨b, k⟩ := z
        by_cases hid : actGroup b k = actGroup a h
        · rcases hcut with rfl | rfl | ⟨log, there, next, rfl, hwon, rfl⟩
          · rw [← hid] at hl hl'
            exact .inl (answer_eq hd hanswers hx hactx hroom hl' hl)
          · rw [← hid] at hl' hwhole
            exact .inr (.inl (answer_eq hd hanswers hx hactx hroom hl' hwhole))
          · exact .inr (.inr (hwon.stopped hd hanswers hb hact hl hl'))
        · obtain ⟨lx, hlx⟩ := hok (actGroup b k)
          exact .inl (answer_eq hd hanswers hx hactx hroom (hapart _ _ hid hlx) hlx)
    · have hroom : a.kind ≠ .create → ∀ log ∈ l', a.seq = log.length → a.seq + 1 < 2 ^ 32 := by
        intro hkind
        have hroom := hfinds.room.room hact hl hkind
        rcases hcut with rfl | rfl | ⟨log, there, next, rfl, hwon, -⟩
        · exact hroom
        · exact offerLog_next hkind hroom
        · exact fun _ _ _ => hwon.room hl
      obtain ⟨-, hagain, hapart''⟩ := offer_answered hd hanswers hb hact hl' hroom
      by_cases hid : id = actGroup a h
      · rw [hid]
        refine ⟨(offerLog l a h).2, hwhole, ?_⟩
        have hsame : (offerLog l' a h).2 = (offerLog l a h).2 := by
          rcases hcut with rfl | rfl | ⟨log, there, next, rfl, hwon, rfl⟩
          · rfl
          · exact offerLog_again l a h
          · rw [hwon.taken, hwon.replaced]
        rw [← hsame]
        exact hagain
      · obtain ⟨lx, hlx⟩ := hok id
        exact ⟨lx, hapart' id lx hid hlx, hapart'' id lx hid (hapart id lx hid hlx)⟩

end Stores

/-- **The stored group is the one its stored acts say**, behind every call of every run in
which no act is taken at the last place a log has; and acts offered again behind a call cut
short are answered as before it or as behind the whole of it, a fork rolled back apart. -/
theorem stored_is_replayed {ops : GroupLogOps} {calls : List OfferCall}
    (hd : Distinct ops.hash (offeredIn calls))
    (hroom : ∀ pre c, pre ++ [c] <+: calls → RoomFor ops (offerRun ops pre) c) :
    (∀ pre, pre <+: calls → Replayed ops.hash (offerRun ops pre)) ∧
      ((∀ i, ops.hash.hash i ≠ none) → ∀ pre c, pre ++ [c] <+: calls →
        FindsGroup ops (offerRun ops pre) c →
          Again ops (offeredIn calls) (offerRun ops pre) c) := by
  have hok := storeOk_run hd hroom
  refine ⟨fun pre hpre => (hok pre hpre).replayed, fun hanswers pre c hpre hfinds => ?_⟩
  exact (hok pre ((List.prefix_append pre [c]).trans hpre)).again hd hanswers
    ⟨c, hpre.subset (List.mem_append_right _ (List.mem_singleton_self c)), rfl⟩ hfinds

/-! ## A fork cut short -/

/-- Member 3 added in the place of member 2, by an act of the lower hash. -/
def forkAct : GroupAct := { plainAct .add 1 11 11 3 1 with sig := 5 }

theorem actOf_fork : actOf plainOps (bytesOf forkAct) = some (forkAct, 5) :=
  actOf_plain rfl rfl rfl (by decide) (by decide) rfl (by decide)

/-- The fork, stopped behind its first save. -/
def stoppedFork : OfferCall := ⟨bytesOf forkAct, [.done, .done, .done, .done, .refused]⟩

/-- A group of two acts, and the fork of the second stopped. -/
def forkCalls : List OfferCall :=
  [⟨bytesOf createAct, []⟩, ⟨bytesOf addAct, []⟩, stoppedFork]

theorem distinct_fork : Distinct lastWord (offeredIn forkCalls) := by
  refine @distinct_calls _ [(createAct, 11), (addAct, 12), (forkAct, 5)] 11 ?_ (fun x hx => ?_)
    (by decide)
  · simp [forkCalls, stoppedFork]
  · simp only [List.mem_cons, List.not_mem_nil, or_false] at hx
    rcases hx with rfl | rfl | rfl
    · exact ⟨actOf_create, rfl⟩
    · exact ⟨actOf_add, rfl⟩
    · exact ⟨actOf_fork, rfl⟩

/-- What the stopped fork leaves is a log, and the fork offered again ends it. -/
theorem fork_replayed : Replayed lastWord (offerRun plainOps forkCalls) ∧
    Again plainOps (offeredIn forkCalls)
      (offerRun plainOps [⟨bytesOf createAct, []⟩, ⟨bytesOf addAct, []⟩]) stoppedFork := by
  have hroom : ∀ c ∈ forkCalls, ∀ rows, RoomFor plainOps rows c := by
    intro c hc rows
    simp only [forkCalls, List.mem_cons, List.not_mem_nil, or_false] at hc
    rcases hc with rfl | rfl | rfl
    · exact (findsGroup_answered actOf_create (by decide)).room
    · exact (findsGroup_answered actOf_add (by decide)).room
    · exact (findsGroup_answered actOf_fork (by decide)).room
  obtain ⟨hreplayed, hagain⟩ := @stored_is_replayed plainOps forkCalls
    distinct_fork
    ( forall_prefix fun n hn => hroom _ (List.getElem_mem hn) _)
  refine ⟨hreplayed _ List.prefix_rfl, hagain (fun _ => by simp [plainOps, lastWord, answering])
    _ _ List.prefix_rfl ⟨?_, hroom _ (by simp [forkCalls]) _⟩⟩
  intro a h hact hkind
  obtain ⟨rfl, -⟩ := Prod.mk.inj (Option.some.inj (actOf_fork.symm.trans hact))
  cases hkind

/-- **Behind a fork stopped at its first save** the act it drops is taken, where without the
stop it is lost; and the fork is taken, where it would be held. -/
theorem dropped_taken :
    let rows := offerRun plainOps [⟨bytesOf createAct, []⟩, ⟨bytesOf addAct, []⟩]
    let stopped := offerCall plainOps rows stoppedFork
    let whole := offered plainOps rows (bytesOf forkAct)
    (answer plainOps stopped (bytesOf addAct)).toOption = some .taken ∧
      (answer plainOps whole (bytesOf addAct)).toOption = some .lost ∧
      (answer plainOps stopped (bytesOf forkAct)).toOption = some .taken ∧
      (answer plainOps whole (bytesOf forkAct)).toOption = some .held := by
  decide +kernel

end Groups
end Fuzznet
