/-
# An offer over logs

`offerLog` is what an offer does to the log of its group, with no store between: an act is
taken at the head, is held, or forks the log and the lower hash stands.  An offer over a
store whose calls are answered is that (`offer_answered`), and one whose calls may fail comes
to that, to nothing, or to one of two logs between (`offer_step`): rolled back to the place of
a fork won, or begun again where a `create` did not find its group.
-/

import Fuzznet.Groups.Offer

namespace Fuzznet
namespace Groups

open Wire Lib

/-- What an offer does to the log of its group. -/
def offerLog (l : Option Log) (a : GroupAct) (h : Bytes32) :
    Except GroupLogErr Offer × Option Log :=
  if a.kind = .create then
    match l with
    | some _ => (.ok .held, l)
    | none =>
      match groupApply blank a h with
      | (.error e, _) => (.error e, l)
      | (.ok (), _) => (.ok .taken, some [(a, h)])
  else
    match l with
    | none => (.error .absent, l)
    | some log =>
      if log.length < a.seq then (.error .gap, l)
      else
        match log[a.seq]? with
        | none =>
          match groupApply (logGroup log) a h with
          | (.error e, _) => (.error e, l)
          | (.ok (), _) => (.ok .taken, some (log ++ [(a, h)]))
        | some there =>
          if a.seq = 0 then (.error .backend, l)
          else if h = there.2 then (.ok .held, l)
          else
            match groupApply (logGroup (log.take a.seq)) a h with
            | (.error e, _) => (.error e, l)
            | (.ok (), _) =>
              if there.2.toNat < h.toNat then (.ok .lost, l)
              else (.ok .replaced, some (log.take a.seq ++ [(a, h)]))

/-- A fork won: the act is taken behind those before its place, where one of a higher hash
stands. -/
structure Won (log : Log) (a : GroupAct) (h : Bytes32) (there : GroupAct × Bytes32)
    (next : Group) : Prop where
  kind : a.kind ≠ .create
  pos : a.seq ≠ 0
  there_eq : log[a.seq]? = some there
  lower : h.toNat < there.2.toNat
  applied : groupApply (logGroup (log.take a.seq)) a h = (.ok (), next)

/-- **What an offer does to a log**: nothing, or it starts it, adds to it, or wins a fork. -/
theorem offerLog_cases (l : Option Log) (a : GroupAct) (h : Bytes32) :
    (offerLog l a h).2 = l ∧ (offerLog l a h).1 ≠ .ok .taken ∧ (offerLog l a h).1 ≠ .ok .replaced ∨
    l = none ∧ a.kind = .create ∧ (∃ g, groupApply blank a h = (.ok (), g)) ∧
      offerLog l a h = (.ok .taken, some [(a, h)]) ∨
    (∃ log g, l = some log ∧ a.kind ≠ .create ∧ a.seq = log.length ∧
      groupApply (logGroup log) a h = (.ok (), g) ∧
      offerLog l a h = (.ok .taken, some (log ++ [(a, h)]))) ∨
    ∃ log there next, l = some log ∧ Won log a h there next ∧
      offerLog l a h = (.ok .replaced, some (log.take a.seq ++ [(a, h)])) := by
  unfold offerLog
  by_cases hkind : a.kind = .create
  · rw [if_pos hkind]
    cases l with
    | some log => exact .inl ⟨rfl, by simp, by simp⟩
    | none =>
      cases happ : groupApply blank a h with
      | mk r g =>
        cases r with
        | error e => exact .inl ⟨rfl, by simp, by simp⟩
        | ok u => exact .inr (.inl ⟨rfl, hkind, ⟨g, rfl⟩, rfl⟩)
  rw [if_neg hkind]
  cases l with
  | none => exact .inl ⟨rfl, by simp, by simp⟩
  | some log =>
    dsimp only
    by_cases hgap : log.length < a.seq
    · rw [if_pos hgap]
      exact .inl ⟨rfl, by simp, by simp⟩
    rw [if_neg hgap]
    cases hx : log[a.seq]? with
    | none =>
      have hhead : a.seq = log.length := by
        rw [List.getElem?_eq_none_iff] at hx
        omega
      cases happ : groupApply (logGroup log) a h with
      | mk r g =>
        cases r with
        | error e => exact .inl ⟨rfl, by simp, by simp⟩
        | ok u => exact .inr (.inr (.inl ⟨log, g, rfl, hkind, hhead, happ, rfl⟩))
    | some there =>
      dsimp only
      by_cases hzero : a.seq = 0
      · rw [if_pos hzero]
        exact .inl ⟨rfl, by simp, by simp⟩
      rw [if_neg hzero]
      by_cases hsame : h = there.2
      · rw [if_pos hsame]
        exact .inl ⟨rfl, by simp, by simp⟩
      rw [if_neg hsame]
      cases happ : groupApply (logGroup (log.take a.seq)) a h with
      | mk r next =>
        cases r with
        | error e => exact .inl ⟨rfl, by simp, by simp⟩
        | ok u =>
          dsimp only
          by_cases hlost : there.2.toNat < h.toNat
          · rw [if_pos hlost]
            exact .inl ⟨rfl, by simp, by simp⟩
          · rw [if_neg hlost]
            have hne : h.toNat ≠ there.2.toNat := fun heq =>
              hsame (BitVec.eq_of_toNat_eq heq)
            exact .inr (.inr (.inr ⟨log, there, next, rfl,
              ⟨hkind, hzero, hx, by omega, happ⟩, rfl⟩))

/-- What an offer whose store calls may fail comes to; `found` where the first was answered. -/
def OfferStep (l : Option Log) (a : GroupAct) (h : Bytes32) (found : Prop) (l' : Option Log) :
    Prop :=
  l' = l ∨ l' = (offerLog l a h).2 ∨
    (offerLog l a h).1 = .ok .replaced ∧ l' = l.map (·.take a.seq) ∨
    a.kind = .create ∧ l ≠ none ∧ ¬found ∧ l' = l.map (·.take 1)

section Specs

variable {hash : HashOps} {B : Set Bytes} {d d' : GroupDisk} {id : Bytes32} {s n : ℕ}
variable {log : Log} {l : Option Log} {g g' : Group} {a : GroupAct} {h : Bytes32} {bytes : Bytes}

/-- A disk behind one that answers answers. -/
def Still (d d' : GroupDisk) : Prop := d.outcomes = [] → d'.outcomes = []

theorem Still.trans {d₁ d₂ d₃ : GroupDisk} (h : Still d₁ d₂) (h' : Still d₂ d₃) : Still d₁ d₃ :=
  fun hnil => h' (h hnil)

theorem still_tail {rows : GroupRows} : Still d ⟨rows, d.outcomes.tail⟩ := fun hnil => by
  show d.outcomes.tail = []
  rw [hnil]
  rfl

theorem next_of_nil (hnil : d.outcomes = []) : d.next = .done := by
  unfold Disk.next
  rw [hnil]
  rfl

/-- A store call that fails, or a hash. -/
def Fallible (hash : HashOps) (d : GroupDisk) : Prop :=
  d.outcomes ≠ [] ∨ ∃ i, hash.hash i = none

theorem Fallible.of_still (h : Fallible hash d') (hstill : Still d d') : Fallible hash d :=
  h.imp_left fun hne hnil => hne (hstill hnil)

theorem logGet_spec (hl : HoldsLog hash B d.rows id l) :
    ∃ d', d'.rows = d.rows ∧ Still d d' ∧
      (logGet d id = (.error .absent, d') ∧ (l = none ∨ d.next ≠ .done) ∨
        ∃ log, l = some log ∧ logGet d id = (.ok (logGroup log), d')) := by
  refine ⟨(d.ask (.group id)).2, rfl, still_tail, ?_⟩
  unfold logGet
  cases hask : (d.ask (.group id)).1 with
  | none =>
    have hpair : d.ask (.group id) = (none, (d.ask (.group id)).2) := Prod.ext hask rfl
    rw [hpair]
    refine .inl ⟨rfl, ?_⟩
    by_cases hdone : d.next = .done
    · rw [Disk.ask_of_done hdone] at hask
      cases l with
      | none => exact .inl rfl
      | some log =>
        obtain ⟨g, hh⟩ := hl
        exact absurd (hask.symm.trans hh.group_row) (by simp)
    · exact .inr hdone
  | some bytes =>
    have hload := Disk.load_of_ask hask
    have hpair : d.ask (.group id) = (some bytes, (d.ask (.group id)).2) := Prod.ext hask rfl
    rw [hpair]
    cases l with
    | none => exact absurd (hload.symm.trans hl) (by simp)
    | some log =>
      obtain ⟨g, hh⟩ := hl
      obtain rfl := Option.some.inj (hload.symm.trans hh.group_row)
      refine .inr ⟨log, rfl, ?_⟩
      dsimp only
      rw [groupDecode_encode hh.accepted.fits, hh.accepted.eq]

theorem logAct_spec {x : GroupAct × Bytes32} (hh : HoldsLog hash B d.rows id (some log))
    (hx : log[s]? = some x) : ∃ d', d'.rows = d.rows ∧ Still d d' ∧
      ((∃ e, logAct hash d id s = (.error e, d')) ∧ d.outcomes ≠ [] ∨
        ∃ bytes ∈ B, logAct hash d id s = (.ok bytes, d') ∧ actAt hash d.rows id s = some bytes ∧
          actDecode bytes = some x.1 ∧ actHash x.1 hash = some x.2) := by
  obtain ⟨g, hh⟩ := hh
  obtain ⟨bytes, hb, hat, hdecode, hhash⟩ := hh.acts s x hx
  have hat' := hat
  unfold actAt at hat
  obtain ⟨z, hz, hrow⟩ := Option.bind_eq_some_iff.1 hat
  refine ⟨(d.ask (.act z)).2, rfl, still_tail, ?_⟩
  unfold logAct
  rw [hz]
  by_cases hdone : d.next = .done
  · have hpair : d.ask (.act z) = (some bytes, (d.ask (.act z)).2) :=
      Prod.ext ((Disk.ask_of_done hdone _).trans hrow) rfl
    dsimp only
    rw [hpair]
    exact .inr ⟨bytes, hb, rfl, hat', hdecode, hhash⟩
  · have hpair : d.ask (.act z) = (none, (d.ask (.act z)).2) := Prod.ext (if_neg hdone) rfl
    dsimp only
    rw [hpair]
    exact .inl ⟨⟨_, rfl⟩, fun hnil => hdone (next_of_nil hnil)⟩

/-- An act of a log, applied to the group of those before it. -/
theorem Accepted.applied (hlog : Accepted log g) {x : GroupAct × Bytes32}
    (hx : log[s]? = some x) :
    groupApply (logGroup (log.take s)) x.1 x.2 = (.ok (), logGroup (log.take (s + 1))) := by
  have hsnoc : log.take (s + 1) = log.take s ++ [(x.1, x.2)] := by
    rw [List.take_add_one, hx]
    rfl
  rcases Nat.eq_zero_or_pos s with rfl | hpos
  · obtain ⟨c, hc, hkind, hseq, hgroup, hprev⟩ := hlog.head
    obtain rfl := Option.some.inj (hx.symm.trans hc)
    rw [hsnoc, logGroup_snoc, groupApply_create hkind hseq hgroup hprev]
  · obtain ⟨g₀, g₁, h₀, -, happ, h₁⟩ := hlog.act hpos hx
    rw [← h₀.eq, ← h₁.eq]
    exact happ

/-- **What is replayed is the group of the first acts.** -/
theorem replayFrom_spec (hh : HoldsLog hash B d.rows id (some log)) (hn : s + n ≤ log.length) :
    ∃ d', d'.rows = d.rows ∧ Still d d' ∧
      (replayFrom hash id n s (logGroup (log.take s)) d = (.error .backend, d') ∧
          d.outcomes ≠ [] ∨
        replayFrom hash id n s (logGroup (log.take s)) d =
          (.ok (logGroup (log.take (s + n))), d')) := by
  induction n generalizing s d with
  | zero => exact ⟨d, rfl, fun hnil => hnil, .inr rfl⟩
  | succ n ih =>
    have hx : log[s]? = some log[s] := List.getElem?_eq_getElem (by omega)
    obtain ⟨d₁, hrows, hstill, ⟨⟨e, hno⟩, hbad⟩ | ⟨bytes, -, hok, -, hdecode, hhash⟩⟩ :=
      logAct_spec hh hx
    · refine ⟨d₁, hrows, hstill, .inl ⟨?_, hbad⟩⟩
      unfold replayFrom
      rw [hno]
    · obtain ⟨g, hg⟩ := hh
      have happ := hg.accepted.applied hx
      obtain ⟨d₂, hrows', hstill', hcases⟩ := ih (d := d₁) (s := s + 1)
        (by rw [hrows]; exact ⟨g, hg⟩) (by omega)
      refine ⟨d₂, hrows'.trans hrows, hstill.trans hstill', ?_⟩
      have hstep : replayFrom hash id (n + 1) s (logGroup (log.take s)) d =
          replayFrom hash id n (s + 1) (logGroup (log.take (s + 1))) d₁ := by
        rw [replayFrom, hok]
        dsimp only
        rw [hdecode]
        dsimp only
        rw [hhash]
        dsimp only
        rw [happ]
      rw [hstep]
      rcases hcases with ⟨hno, hbad⟩ | hok'
      · exact .inl ⟨hno, fun hnil => hbad (hstill hnil)⟩
      · rw [hok', Nat.add_right_comm, Nat.add_assoc]
        exact .inr rfl

variable {pre : Log} {ops : GroupLogOps}

theorem actThere_spec {x : GroupAct × Bytes32} (hh : HoldsLog ops.hash B d.rows a.group (some log))
    (hx : log[a.seq]? = some x) :
    ∃ d', d'.rows = d.rows ∧ Still d d' ∧
      (actThere ops d a = (none, d') ∧ d.outcomes ≠ [] ∨
        ∃ held, actThere ops d a = (some (held, x.2), d')) := by
  obtain ⟨d', hrows, hstill, ⟨⟨e, hno⟩, hbad⟩ | ⟨bytes, -, hok, -, hdecode, hhash⟩⟩ :=
    logAct_spec hh hx
  · refine ⟨d', hrows, hstill, .inl ⟨?_, hbad⟩⟩
    unfold actThere
    rw [hno]
  · refine ⟨d', hrows, hstill, .inr ⟨bytes, ?_⟩⟩
    unfold actThere
    rw [hok]
    dsimp only
    rw [hdecode, Option.bind_some, hhash]
    rfl

/-! ## Filing -/

/-- What an answer of a store says of it: a call that fails is one that may. -/
theorem save_still (d : GroupDisk) (k : StoreKey) (b : Bytes) :
    Still d (d.save k b).2 ∧ ((d.save k b).1 = false → d.outcomes ≠ []) := by
  refine ⟨fun hnil => ?_, fun hno hnil => ?_⟩
  · rw [Disk.save_of_nil hnil]
  · rw [Disk.save_of_nil hnil] at hno
    cases hno

theorem actSave_spec (d : GroupDisk) (id : Bytes32) (s : ℕ) (bytes : Bytes) :
    ∃ r d', actSave hash d id s bytes = (r, d') ∧ Still d d' ∧
      (r = .ok () ∨ r = .error .backend ∧ Fallible hash d) ∧
      (d' = d ∧ r = .error .backend ∨
        ∃ x, actSubject hash id s = some x ∧ d' = (d.save (.act x) bytes).2 ∧
          (r = .ok () → (d.save (.act x) bytes).1 = true)) := by
  unfold actSave
  cases hx : actSubject hash id s with
  | none => exact ⟨_, d, rfl, fun hnil => hnil, .inr ⟨rfl, .inr ⟨_, hx⟩⟩, .inl ⟨rfl, rfl⟩⟩
  | some x =>
    obtain ⟨hstill, hfail⟩ := save_still d (.act x) bytes
    cases hsave : (d.save (.act x) bytes).1 with
    | true =>
      have hpair : d.save (.act x) bytes = (true, (d.save (.act x) bytes).2) :=
        Prod.ext hsave rfl
      dsimp only
      rw [hpair]
      exact ⟨_, _, rfl, hstill, .inl rfl, .inr ⟨x, rfl, rfl, fun _ => hsave⟩⟩
    | false =>
      have hpair : d.save (.act x) bytes = (false, (d.save (.act x) bytes).2) :=
        Prod.ext hsave rfl
      dsimp only
      rw [hpair]
      exact ⟨_, _, rfl, hstill, .inr ⟨rfl, .inl (hfail hsave)⟩,
        .inr ⟨x, rfl, rfl, fun hok => by cases hok⟩⟩

theorem groupSave_spec (d : GroupDisk) (g : Group) :
    ∃ r, groupSave d g = (r, (d.save (.group g.id) (groupEncode g)).2) ∧
      (r = .ok () ∧ (d.save (.group g.id) (groupEncode g)).1 = true ∨
        r = .error .backend ∧ d.outcomes ≠ []) := by
  unfold groupSave
  obtain ⟨-, hfail⟩ := save_still d (.group g.id) (groupEncode g)
  cases hsave : (d.save (.group g.id) (groupEncode g)).1 with
  | true =>
    have hpair : d.save (.group g.id) (groupEncode g) =
        (true, (d.save (.group g.id) (groupEncode g)).2) := Prod.ext hsave rfl
    rw [hpair]
    exact ⟨_, rfl, .inl ⟨rfl, rfl⟩⟩
  | false =>
    have hpair : d.save (.group g.id) (groupEncode g) =
        (false, (d.save (.group g.id) (groupEncode g)).2) := Prod.ext hsave rfl
    rw [hpair]
    exact ⟨_, rfl, .inr ⟨rfl, hfail hsave⟩⟩

/-- The other groups of a store are as they were. -/
def Apart (hash : HashOps) (B : Set Bytes) (id : Bytes32) (rows rows' : GroupRows) : Prop :=
  ∀ id' l, id' ≠ id → HoldsLog hash B rows id' l → HoldsLog hash B rows' id' l

theorem Apart.refl (hash : HashOps) (B : Set Bytes) (id : Bytes32) (rows : GroupRows) :
    Apart hash B id rows rows := fun _ _ _ hl => hl

theorem Apart.trans {rows rows' rows'' : GroupRows} (h : Apart hash B id rows rows')
    (h' : Apart hash B id rows' rows'') : Apart hash B id rows rows'' :=
  fun id' l hne hl => h' id' l hne (h id' l hne hl)

theorem apart_saveAct {x : Bytes32} (hd : Distinct hash B) (hid : id ∈ offeredIds hash B)
    (hs : s < 2 ^ 32) (hx : actSubject hash id s = some x) (bytes : Bytes) :
    Apart hash B id d.rows (d.save (.act x) bytes).2.rows :=
  fun _ _ hne hl => hl.saveAct hd hid hs hx (fun heq => absurd heq hne) bytes

theorem apart_saveGroup (g : Group) :
    Apart hash B g.id d.rows (d.save (.group g.id) (groupEncode g)).2.rows :=
  fun _ _ hne hl => hl.saveGroup_ne hne _

/-- The acts before a place are filed as they were when an act is saved there. -/
theorem Filed.saveAct {x : Bytes32} {i : ℕ} {y : GroupAct × Bytes32}
    (hf : Filed hash B d.rows id i y) (hd : Distinct hash B) (hid : id ∈ offeredIds hash B)
    (hi : i < s) (hs : s < 2 ^ 32) (hx : actSubject hash id s = some x) (bytes : Bytes) :
    Filed hash B (d.save (.act x) bytes).2.rows id i y := by
  obtain ⟨bytes', hb, hat, hdecode, hhash⟩ := hf
  refine ⟨bytes', hb, ?_, hdecode, hhash⟩
  unfold actAt at hat ⊢
  obtain ⟨z, hz, hrow⟩ := Option.bind_eq_some_iff.1 hat
  have hne : z ≠ x := by
    rintro rfl
    exact hi.ne (hd.subject_inj hid (hi.trans hs) hid hs hz hx).2
  rw [hz, Option.bind_some]
  rcases d.save_rows (.act x) bytes with heq | ⟨-, heq⟩ <;> rw [heq]
  · rw [AList.lookup_insert_ne (by simpa using hne)]
    exact hrow
  · exact hrow

/-- The act saved is filed. -/
theorem filed_saved {x : Bytes32} (hb : bytes ∈ B) (ha : actDecode bytes = some a)
    (hh : actHash a hash = some h) (hx : actSubject hash id s = some x)
    (hsaved : (d.save (.act x) bytes).1 = true) :
    Filed hash B (d.save (.act x) bytes).2.rows id s (a, h) := by
  refine ⟨bytes, hb, ?_, ha, hh⟩
  unfold actAt
  rw [hx, Option.bind_some]
  exact Disk.load_of_save hsaved

/-- An act to be filed behind the acts `pre`, with what hashes it. -/
structure Next (hash : HashOps) (B : Set Bytes) (pre : Log) (a : GroupAct) (h : Bytes32)
    (bytes : Bytes) (g : Group) : Prop where
  mem : bytes ∈ B
  decode : actDecode bytes = some a
  hash_eq : actHash a hash = some h
  accepted : Accepted (pre ++ [(a, h)]) g
  room : (pre ++ [(a, h)]).length < 2 ^ 32
  id_mem : g.id ∈ offeredIds hash B

theorem Next.place (hn : Next hash B pre a h bytes g) : pre.length < 2 ^ 32 := by
  have hroom := hn.room
  rw [List.length_append, List.length_singleton] at hroom
  omega

/-- The acts before a place and the act saved at it are filed. -/
theorem Next.filed {x : Bytes32} (hn : Next hash B pre a h bytes g) (hd : Distinct hash B)
    (hpre : ∀ i y, pre[i]? = some y → Filed hash B d.rows g.id i y)
    (hx : actSubject hash g.id pre.length = some x) (hsaved : (d.save (.act x) bytes).1 = true) :
    ∀ i y, (pre ++ [(a, h)])[i]? = some y →
      Filed hash B (d.save (.act x) bytes).2.rows g.id i y := by
  intro i y hy
  rcases Nat.lt_or_ge i pre.length with hlt | hge
  · rw [List.getElem?_append_left hlt] at hy
    exact (hpre i y hy).saveAct hd hn.id_mem hlt hn.place hx bytes
  · rw [List.getElem?_append_right hge] at hy
    have hzero : i - pre.length = 0 := by
      by_contra hne
      rw [List.getElem?_eq_none (by rw [List.length_singleton]; omega)] at hy
      cases hy
    rw [hzero] at hy
    obtain rfl := Option.some.inj hy
    obtain rfl : i = pre.length := by omega
    exact filed_saved hn.mem hn.decode hn.hash_eq hx hsaved

/-- **An act filed at its place, and the group behind it.** -/
theorem fileNext_spec (hn : Next ops.hash B pre a h bytes g) (hd : Distinct ops.hash B)
    (hpre : ∀ i y, pre[i]? = some y → Filed ops.hash B d.rows g.id i y)
    (hkeep : ∀ x, actSubject ops.hash g.id pre.length = some x →
      HoldsLog ops.hash B (d.save (.act x) bytes).2.rows g.id l)
    (hl : HoldsLog ops.hash B d.rows g.id l) :
    ∃ r d', fileNext ops d g.id pre.length bytes g = (r, d') ∧ Still d d' ∧
      Apart ops.hash B g.id d.rows d'.rows ∧
      (r = .ok () ∧ HoldsLog ops.hash B d'.rows g.id (some (pre ++ [(a, h)])) ∨
        (∃ e, r = .error e) ∧ Fallible ops.hash d ∧
          (HoldsLog ops.hash B d'.rows g.id l ∨
            HoldsLog ops.hash B d'.rows g.id (some (pre ++ [(a, h)])))) := by
  unfold fileNext
  obtain ⟨r, d₁, hact, hstill, hr, hwhere⟩ :=
    @actSave_spec ops.hash d g.id pre.length bytes
  rw [hact]
  have hkept : HoldsLog ops.hash B d₁.rows g.id l ∧ Apart ops.hash B g.id d.rows d₁.rows := by
    rcases hwhere with ⟨rfl, -⟩ | ⟨x, hx, rfl, -⟩
    · exact ⟨hl, Apart.refl _ _ _ _⟩
    · exact ⟨hkeep x hx, apart_saveAct hd hn.id_mem hn.place hx bytes⟩
  rcases hr with rfl | ⟨rfl, hfail⟩
  · rcases hwhere with ⟨-, hno⟩ | ⟨x, hx, rfl, hsaved⟩
    · cases hno
    have hacts := hn.filed hd hpre hx (hsaved rfl)
    obtain ⟨r', hgroup, hr'⟩ := groupSave_spec (d.save (.act x) bytes).2 g
    obtain ⟨hstill', -⟩ := save_still (d.save (.act x) bytes).2 (.group g.id) (groupEncode g)
    refine ⟨r', _, hgroup, hstill.trans hstill', hkept.2.trans (apart_saveGroup g), ?_⟩
    have hsave := hkept.1.saveGroup hn.accepted rfl hn.room hacts
    rcases hr' with ⟨rfl, hyes⟩ | ⟨rfl, hbad⟩
    · rcases hsave with hsave | ⟨hno, -⟩
      · exact .inl ⟨rfl, hsave⟩
      · rw [hyes] at hno
        cases hno
    · refine .inr ⟨⟨_, rfl⟩, .inl fun hnil => hbad (hstill hnil), ?_⟩
      rcases hsave with hsave | ⟨-, hsave⟩
      · exact .inr hsave
      · exact .inl hsave
  · exact ⟨_, d₁, rfl, hstill, hkept.2, .inr ⟨⟨_, rfl⟩, hfail, .inl hkept.1⟩⟩

/-- **A fork filed**: the log rolled back, the act, the group behind it. -/
theorem fileFork_spec {rolled : Group} (hd : Distinct ops.hash B)
    (hn : Next ops.hash B (log.take a.seq) a h bytes g)
    (hh : HoldsLog ops.hash B d.rows g.id (some log)) (hlt : a.seq < log.length)
    (hrolled : Accepted (log.take a.seq) rolled) (hid : rolled.id = g.id)
    (hgroup : a.group = g.id) :
    ∃ r d', fileFork ops d rolled g a bytes = (r, d') ∧ Still d d' ∧
      Apart ops.hash B g.id d.rows d'.rows ∧
      (r = .ok () ∧ HoldsLog ops.hash B d'.rows g.id (some (log.take a.seq ++ [(a, h)])) ∨
        (∃ e, r = .error e) ∧ Fallible ops.hash d ∧
          (HoldsLog ops.hash B d'.rows g.id (some log) ∨
            HoldsLog ops.hash B d'.rows g.id (some (log.take a.seq)) ∨
            HoldsLog ops.hash B d'.rows g.id (some (log.take a.seq ++ [(a, h)])))) := by
  have hlen : (log.take a.seq).length = a.seq := by
    rw [List.length_take]
    omega
  have hfirst : ∀ i y, (log.take a.seq)[i]? = some y → Filed ops.hash B d.rows g.id i y := by
    intro i y hy
    obtain ⟨g₀, hg₀⟩ := hh
    refine hg₀.acts i y ?_
    rw [List.getElem?_take] at hy
    split at hy
    · exact hy
    · cases hy
  have hplace := hn.place
  unfold fileFork
  obtain ⟨r, hsave, hr⟩ := groupSave_spec d rolled
  obtain ⟨hstill, -⟩ := save_still d (.group rolled.id) (groupEncode rolled)
  have hback := hh.saveGroup hrolled hid hplace hfirst
  have hapart : Apart ops.hash B g.id d.rows
      (d.save (.group rolled.id) (groupEncode rolled)).2.rows := hid ▸ apart_saveGroup rolled
  rw [hsave]
  rcases hr with ⟨rfl, hyes⟩ | ⟨rfl, hbad⟩
  · have hheld : HoldsLog ops.hash B (d.save (.group rolled.id) (groupEncode rolled)).2.rows g.id
        (some (log.take a.seq)) := by
      rcases hback with hback | ⟨hno, -⟩
      · exact hback
      · rw [hyes] at hno
        cases hno
    have hacts := hheld
    obtain ⟨g₀, hg₀⟩ := hacts
    obtain ⟨r', d', hfile, hstill', hapart', hcases⟩ := fileNext_spec hn hd
      hg₀.acts (fun x hx => hheld.saveAct hd hn.id_mem hplace hx (fun _ log' hlog' => by
        rw [← Option.mem_some_iff.1 hlog']) bytes) hheld
    rw [hlen] at hfile
    rw [hgroup]
    refine ⟨r', d', hfile, hstill.trans hstill', hapart.trans hapart', ?_⟩
    rcases hcases with hok | ⟨herr, hfail, hheld' | hnew⟩
    · exact .inl hok
    · exact .inr ⟨herr, hfail.of_still hstill, .inr (.inl hheld')⟩
    · exact .inr ⟨herr, hfail.of_still hstill, .inr (.inr hnew)⟩
  · refine ⟨_, _, rfl, hstill, hapart, .inr ⟨⟨_, rfl⟩, .inl hbad, ?_⟩⟩
    rcases hback with hback | ⟨-, hback⟩
    · exact .inr (.inl hback)
    · exact .inl hback

theorem tellDropped_rows (ops : GroupLogOps) (id : Bytes32) (s : ℕ) (d : GroupDisk) :
    (tellDropped ops id s d).2.rows = d.rows ∧ Still d (tellDropped ops id s d).2 := by
  have hact : (logAct ops.hash d id s).2.rows = d.rows ∧ Still d (logAct ops.hash d id s).2 := by
    unfold logAct
    split
    · exact ⟨rfl, fun hnil => hnil⟩
    next x _ =>
      have hask : (d.ask (.act x)).2.rows = d.rows ∧ Still d (d.ask (.act x)).2 :=
        ⟨rfl, still_tail⟩
      split
      next d' heq => rwa [heq] at hask
      next bytes d' heq => rwa [heq] at hask
  unfold tellDropped
  split
  · split
    next e d' heq => rwa [heq] at hact
    next bytes d' heq => rwa [heq] at hact
  · exact ⟨rfl, fun hnil => hnil⟩

/-- **The tail a fork drops is past the head**: every log held stays. -/
theorem dropTail_spec (hd : Distinct ops.hash B) (hid : id ∈ offeredIds ops.hash B)
    (hs : s + n ≤ 2 ^ 32) (hpast : log.length ≤ s) (hh : HoldsLog ops.hash B d.rows id (some log)) :
    ∃ told d', dropTail ops id n s d = (told, d') ∧ Still d d' ∧
      Apart ops.hash B id d.rows d'.rows ∧ HoldsLog ops.hash B d'.rows id (some log) := by
  induction n generalizing s d with
  | zero => exact ⟨[], d, rfl, fun hnil => hnil, Apart.refl _ _ _ _, hh⟩
  | succ n ih =>
    obtain ⟨hrows, hstill⟩ := tellDropped_rows ops id s d
    obtain ⟨told₁, d₁, htell⟩ : ∃ t d₁, tellDropped ops id s d = (t, d₁) := ⟨_, _, rfl⟩
    rw [htell] at hrows hstill
    dsimp only at hrows hstill
    have hremove : Still d₁ (removeAct ops id s d₁) ∧
        Apart ops.hash B id d.rows (removeAct ops id s d₁).rows ∧
        HoldsLog ops.hash B (removeAct ops id s d₁).rows id (some log) := by
      unfold removeAct
      split
      · split
        · rw [hrows]
          exact ⟨fun hnil => hnil, Apart.refl _ _ _ _, hh⟩
        next x hx =>
          refine ⟨?_, fun id' l hne hl => ?_, ?_⟩
          · rw [Still, Disk.remove, Disk.change_outcomes]
            intro hnil
            rw [hnil]
            rfl
          · exact HoldsLog.removeAct (by rwa [hrows]) hd hid (by omega) hx
              fun heq => absurd heq hne
          · exact HoldsLog.removeAct (by rwa [hrows]) hd hid (by omega) hx
              fun _ log' hlog' => by rwa [← Option.mem_some_iff.1 hlog']
      · rw [hrows]
        exact ⟨fun hnil => hnil, Apart.refl _ _ _ _, hh⟩
    obtain ⟨hstill', hapart, hheld⟩ := hremove
    obtain ⟨told, d', hdrop, hstill'', hapart', hheld'⟩ :=
      ih (s := s + 1) (by omega) (by omega) hheld
    refine ⟨told₁ ++ told, d', ?_, hstill.trans (hstill'.trans hstill''),
      hapart.trans hapart', hheld'⟩
    rw [dropTail, htell]
    dsimp only
    rw [hdrop]

end Specs

/-! ## Offers -/

section Offers

variable {ops : GroupLogOps} {B : Set Bytes} {d d' : GroupDisk} {l : Option Log} {log : Log}
variable {g g' : Group} {a : GroupAct} {h : Bytes32} {bytes : Bytes}

theorem actOf_spec (hact : actOf ops bytes = some (a, h)) :
    actDecode bytes = some a ∧ actVerify a ops.sign ops.member = true ∧
      actHash a ops.hash = some h := by
  unfold actOf at hact
  obtain ⟨a', ha, hrest⟩ := Option.bind_eq_some_iff.1 hact
  split at hrest
  next hverify =>
    obtain ⟨h', hh, heq⟩ := Option.map_eq_some_iff.1 hrest
    obtain ⟨rfl, rfl⟩ := Prod.mk.inj heq
    exact ⟨ha, hverify, hh⟩
  next => cases hrest

theorem actGroup_mem (hb : bytes ∈ B) (hact : actOf ops bytes = some (a, h)) :
    actGroup a h ∈ offeredIds ops.hash B := by
  obtain ⟨ha, -, hh⟩ := actOf_spec hact
  exact ⟨bytes, hb, a, h, ha, hh, rfl⟩

/-- What an offer comes to: its answer, the other groups, and the log of its own. -/
def Comes (ops : GroupLogOps) (B : Set Bytes) (d : GroupDisk) (l : Option Log) (a : GroupAct)
    (h : Bytes32) (r : OfferResult) : Prop :=
  Still d r.disk ∧ Apart ops.hash B (actGroup a h) d.rows r.disk.rows ∧
    (r.answer = (offerLog l a h).1 ∧
        HoldsLog ops.hash B r.disk.rows (actGroup a h) (offerLog l a h).2 ∨
      Fallible ops.hash d ∧ ∃ l', HoldsLog ops.hash B r.disk.rows (actGroup a h) l' ∧
        OfferStep l a h (d.next = .done) l')

/-- An act taken behind a log, or none, and filed. -/
theorem takeNext_spec (hd : Distinct ops.hash B) (hb : bytes ∈ B)
    (hact : actOf ops bytes = some (a, h)) (hroom : pre.length + 1 < 2 ^ 32)
    (hid : ∀ g', groupApply (logGroup pre) a h = (.ok (), g') →
      g'.id = actGroup a h ∧ Accepted (pre ++ [(a, h)]) g' ∧ a.seq = pre.length)
    (hpre : ∀ i y, pre[i]? = some y → Filed ops.hash B d.rows (actGroup a h) i y)
    (hkeep : ∀ x, actSubject ops.hash (actGroup a h) pre.length = some x →
      HoldsLog ops.hash B (d.save (.act x) bytes).2.rows (actGroup a h) l)
    (hl : HoldsLog ops.hash B d.rows (actGroup a h) l) :
    ∃ r d', takeNext ops d (logGroup pre) a h bytes = (r, d') ∧ Still d d' ∧
      Apart ops.hash B (actGroup a h) d.rows d'.rows ∧
      ((∃ e, (groupApply (logGroup pre) a h).1 = .error e ∧ r = .error e) ∧ d' = d ∨
        (groupApply (logGroup pre) a h).1 = .ok () ∧
          (r = .ok .taken ∧
              HoldsLog ops.hash B d'.rows (actGroup a h) (some (pre ++ [(a, h)])) ∨
            (∃ e, r = .error e) ∧ Fallible ops.hash d ∧
              (HoldsLog ops.hash B d'.rows (actGroup a h) l ∨
                HoldsLog ops.hash B d'.rows (actGroup a h) (some (pre ++ [(a, h)]))))) := by
  obtain ⟨ha, -, hh⟩ := actOf_spec hact
  unfold takeNext
  cases happ : groupApply (logGroup pre) a h with
  | mk r g' =>
    cases r with
    | error e =>
      exact ⟨_, d, rfl, fun hnil => hnil, Apart.refl _ _ _ _, .inl ⟨⟨e, rfl, rfl⟩, rfl⟩⟩
    | ok u =>
      obtain ⟨hgid, haccepted, hseq⟩ := hid g' happ
      have hn : Next ops.hash B pre a h bytes g' :=
        ⟨hb, ha, hh, haccepted, by
          rw [List.length_append, List.length_singleton]
          exact hroom, hgid ▸ actGroup_mem hb hact⟩
      rw [← hgid] at hpre hkeep hl ⊢
      obtain ⟨r', d', hfile, hstill, hapart, hcases⟩ := fileNext_spec hn hd hpre hkeep hl
      rw [← hseq] at hfile
      dsimp only
      rw [hfile]
      rcases hcases with ⟨rfl, hheld⟩ | ⟨⟨e, rfl⟩, hfail, hheld⟩
      · exact ⟨_, d', rfl, hstill, hapart, .inr ⟨rfl, .inl ⟨rfl, hheld⟩⟩⟩
      · exact ⟨_, d', rfl, hstill, hapart, .inr ⟨rfl, .inr ⟨⟨e, rfl⟩, hfail, hheld⟩⟩⟩

/-- Rows that read the same hold the same. -/
theorem HoldsLog.congr {hash : HashOps} {rows rows' : GroupRows} {id : Bytes32}
    (hl : HoldsLog hash B rows id l) (hsame : ∀ k, rows'.lookup k = rows.lookup k) :
    HoldsLog hash B rows' id l := by
  cases l with
  | none => exact (hsame _).trans hl
  | some log =>
    obtain ⟨g, hh⟩ := hl
    refine ⟨g, hh.accepted, hh.group_id, hh.length_lt, (hsame _).trans hh.group_row,
      fun s y hy => ?_⟩
    obtain ⟨bytes, hb, hat, hdecode, hhash⟩ := hh.acts s y hy
    refine ⟨bytes, hb, ?_, hdecode, hhash⟩
    unfold actAt at hat ⊢
    simpa only [hsame] using hat

/-- The `create` of a group held is the first act of its log, byte for byte. -/
theorem create_held (hd : Distinct ops.hash B) (hb : bytes ∈ B)
    (hact : actOf ops bytes = some (a, h)) (hh : HoldsLog ops.hash B d.rows h (some log)) :
    log.take 1 = [(a, h)] ∧ actAt ops.hash d.rows h 0 = some bytes := by
  obtain ⟨ha, -, hhash⟩ := actOf_spec hact
  obtain ⟨g, hh⟩ := hh
  obtain ⟨c, hc, -⟩ := hh.accepted.head
  obtain ⟨bytes', hb', hat, hdecode, hhash'⟩ := hh.acts 0 _ hc
  rw [hh.group_id] at hc hhash'
  rw [hash_of_decode ha] at hhash
  rw [hash_of_decode hdecode] at hhash'
  obtain rfl := hd.acts bytes hb bytes' hb' h hhash hhash'
  obtain rfl := Option.some.inj (hdecode.symm.trans ha)
  refine ⟨?_, hat⟩
  cases log with
  | nil => cases hc
  | cons y log =>
    rw [List.take_succ_cons, List.take_zero, Option.some.inj hc]

theorem offer_create (hd : Distinct ops.hash B) (hb : bytes ∈ B)
    (hact : actOf ops bytes = some (a, h)) (hkind : a.kind = .create)
    (hl : HoldsLog ops.hash B d.rows (actGroup a h) l) :
    Comes ops B d l a h (groupLogOffer ops d bytes) := by
  have hgroup : actGroup a h = h := if_pos hkind
  have hnew : ∀ g', groupApply (logGroup []) a h = (.ok (), g') →
      g'.id = actGroup a h ∧ Accepted ([] ++ [(a, h)]) g' ∧ a.seq = ([] : Log).length := by
    intro g' happ
    obtain ⟨hseq, hplace, hprev, rfl⟩ := apply_of_create hkind happ
    exact ⟨hgroup.symm, .create hkind happ, hseq⟩
  unfold groupLogOffer
  rw [hact]
  dsimp only
  rw [if_pos hkind]
  obtain ⟨d₁, hrows, hstill, ⟨hget, hwhy⟩ | ⟨log, rfl, hget⟩⟩ := logGet_spec hl
  · rw [hgroup] at hget
    rw [hget]
    dsimp only
    rw [← hrows] at hl
    have hkeep : ∀ x, actSubject ops.hash (actGroup a h) ([] : Log).length = some x →
        HoldsLog ops.hash B (d₁.save (.act x) bytes).2.rows (actGroup a h) l := by
      intro x hx
      cases l with
      | none =>
        exact hl.saveAct hd (actGroup_mem hb hact) (by decide) hx
          (fun _ log hlog => by cases hlog) bytes
      | some log =>
        obtain ⟨-, hat⟩ := create_held hd hb hact (hgroup ▸ hl)
        rw [← hgroup] at hat
        unfold actAt at hat
        obtain ⟨z, hz, hrow⟩ := Option.bind_eq_some_iff.1 hat
        obtain rfl := Option.some.inj (hz.symm.trans hx)
        refine hl.congr fun k => ?_
        rcases d₁.save_rows (.act z) bytes with heq | ⟨-, heq⟩ <;> rw [heq]
        by_cases hk : k = .act z
        · rw [hk, AList.lookup_insert, hrow]
        · exact AList.lookup_insert_ne hk
    obtain ⟨r, d₂, htake, hstill', hapart, hcases⟩ := takeNext_spec hd hb hact
      (by decide) hnew (fun i y hy => by cases hy) hkeep hl
    have hblank : logGroup [] = blank := rfl
    rw [hblank] at htake hcases
    rw [htake]
    refine ⟨hstill.trans hstill', fun id' l' hne hl' => hapart id' l' hne (by rwa [hrows]), ?_⟩
    cases l with
    | none =>
      have hlog : offerLog none a h = match groupApply blank a h with
          | (.error e, _) => (.error e, none)
          | (.ok (), _) => (.ok .taken, some [(a, h)]) := by
        unfold offerLog
        rw [if_pos hkind]
      rcases hcases with ⟨⟨e, herr, rfl⟩, rfl⟩ | ⟨hok, ⟨rfl, hheld⟩ | ⟨-, hfail, hheld⟩⟩
      · refine .inl ?_
        rw [hlog, show groupApply blank a h = (.error e, (groupApply blank a h).2) from
          Prod.ext herr rfl]
        exact ⟨rfl, hl⟩
      · refine .inl ?_
        rw [hlog, show groupApply blank a h = (.ok (), (groupApply blank a h).2) from
          Prod.ext hok rfl]
        exact ⟨rfl, hheld⟩
      · refine .inr ⟨hfail.of_still hstill, ?_⟩
        rcases hheld with hheld | hheld
        · exact ⟨_, hheld, .inl rfl⟩
        · refine ⟨_, hheld, .inr (.inl ?_)⟩
          rw [hlog, show groupApply blank a h = (.ok (), (groupApply blank a h).2) from
            Prod.ext hok rfl]
          rfl
    | some log =>
      have hfound : d.next ≠ .done := hwhy.resolve_left (by simp)
      obtain ⟨hfirst, -⟩ := create_held hd hb hact (hgroup ▸ hl)
      refine .inr ⟨.inl fun hnil => hfound (next_of_nil hnil), ?_⟩
      have hagain : HoldsLog ops.hash B d₂.rows (actGroup a h) (some log) ∨
          HoldsLog ops.hash B d₂.rows (actGroup a h) (some [(a, h)]) := by
        rcases hcases with ⟨-, rfl⟩ | ⟨-, ⟨-, hheld⟩ | ⟨-, -, hheld⟩⟩
        · exact .inl hl
        · exact .inr hheld
        · exact hheld
      rcases hagain with hheld | hheld
      · exact ⟨_, hheld, .inl rfl⟩
      · refine ⟨_, hheld, .inr (.inr (.inr ⟨hkind, by simp, hfound, ?_⟩))⟩
        rw [Option.map_some, hfirst]
  · rw [hgroup] at hget
    rw [hget]
    refine ⟨hstill, fun id' l' hne hl' => ?_, .inl ?_⟩
    · show HoldsLog ops.hash B d₁.rows id' l'
      rwa [hrows]
    · unfold offerLog
      rw [if_pos hkind]
      refine ⟨rfl, ?_⟩
      show HoldsLog ops.hash B d₁.rows (actGroup a h) (some log)
      rwa [hrows]

/-- An act taken behind a group is of that group, which stays its own. -/
theorem group_of_applied (hkind : a.kind ≠ .create) (hlog : Accepted pre g)
    (happ : groupApply g a h = (.ok (), g')) :
    a.group = g.id ∧ g'.id = a.group ∧ a.seq = g.seq ∧ Accepted (pre ++ [(a, h)]) g' := by
  obtain ⟨hcreate, -⟩ | ⟨-, -, hseq, hgroup, -, next, hstep, rfl⟩ := groupApply_cases happ
  · exact absurd hcreate hkind
  · exact ⟨hgroup, (hstep.place hlog.fits.epoch).1.trans hgroup.symm, hseq,
      hlog.next hkind happ⟩

/-- What an act at a filled place does to the log, once it is taken behind those before it. -/
theorem offerLog_fork {there : GroupAct × Bytes32} (hkind : a.kind ≠ .create)
    (hx : log[a.seq]? = some there) (hpos : a.seq ≠ 0) : offerLog (some log) a h =
      if h = there.2 then (.ok .held, some log)
      else match groupApply (logGroup (log.take a.seq)) a h with
        | (.error e, _) => (.error e, some log)
        | (.ok (), _) =>
          if there.2.toNat < h.toNat then (.ok .lost, some log)
          else (.ok .replaced, some (log.take a.seq ++ [(a, h)])) := by
  have hlt : a.seq < log.length := by
    by_contra hge
    rw [List.getElem?_eq_none (not_lt.1 hge)] at hx
    cases hx
  unfold offerLog
  rw [if_neg hkind]
  dsimp only
  rw [if_neg (by omega), hx]
  dsimp only
  rw [if_neg hpos]

section

variable (hd : Distinct ops.hash B) (hb : bytes ∈ B) (hact : actOf ops bytes = some (a, h))
include hd hb hact

theorem offer_fork (hkind : a.kind ≠ .create)
    (hh : HoldsLog ops.hash B d.rows (actGroup a h) (some log)) (hlt : a.seq < log.length)
    (hg : g.seq = log.length) : Comes ops B d (some log) a h (offerFork ops d g a h bytes) := by
  have hgroup : actGroup a h = a.group := if_neg hkind
  obtain ⟨ha, -, hhash⟩ := actOf_spec hact
  have hx : log[a.seq]? = some log[a.seq] := List.getElem?_eq_getElem hlt
  have hsame : ∀ d' : GroupDisk, d'.rows = d.rows →
      Apart ops.hash B (actGroup a h) d.rows d'.rows ∧
        HoldsLog ops.hash B d'.rows (actGroup a h) (some log) := fun d' heq =>
    ⟨fun _ _ _ hl => by rwa [heq], by rwa [heq]⟩
  unfold offerFork
  by_cases hzero : a.seq = 0
  · rw [if_pos hzero]
    refine ⟨fun hnil => hnil, (hsame d rfl).1, .inl ?_⟩
    unfold offerLog
    rw [if_neg hkind]
    dsimp only
    rw [if_neg (by omega), hx]
    dsimp only
    rw [if_pos hzero]
    exact ⟨rfl, hh⟩
  rw [if_neg hzero]
  have hforks := offerLog_fork (h := h) hkind hx hzero
  obtain ⟨d₁, hrows₁, hstill₁, ⟨hno, hbad⟩ | ⟨held, hthere⟩⟩ :=
    actThere_spec (hgroup ▸ hh) hx
  · rw [hno]
    exact ⟨hstill₁, (hsame d₁ hrows₁).1, .inr ⟨.inl hbad, _, (hsame d₁ hrows₁).2, .inl rfl⟩⟩
  rw [hthere]
  dsimp only
  by_cases hsameHash : h = log[a.seq].2
  · rw [if_pos hsameHash]
    rw [if_pos hsameHash] at hforks
    refine ⟨hstill₁, (hsame d₁ hrows₁).1, .inl ?_⟩
    rw [hforks]
    exact ⟨rfl, (hsame d₁ hrows₁).2⟩
  rw [if_neg hsameHash]
  rw [if_neg hsameHash] at hforks
  obtain ⟨d₂, hrows₂, hstill₂, hreplay⟩ := replayFrom_spec (d := d₁) (s := 0) (n := a.seq)
    (hgroup ▸ (hsame d₁ hrows₁).2) (by omega)
  have hrows := hrows₂.trans hrows₁
  have hstill := hstill₁.trans hstill₂
  rw [Nat.zero_add, List.take_zero] at hreplay
  change replay ops.hash d₁ a.group a.seq = _ ∧ _ ∨ replay ops.hash d₁ a.group a.seq = _ at hreplay
  rcases hreplay with ⟨hno, hbad⟩ | hreplayed
  · rw [hno]
    exact ⟨hstill, (hsame d₂ hrows).1, .inr ⟨.inl fun hnil => hbad (hstill₁ hnil), _,
      (hsame d₂ hrows).2, .inl rfl⟩⟩
  rw [hreplayed]
  dsimp only
  have hh' := hh
  obtain ⟨g₀, hheld⟩ := hh'
  obtain ⟨rolled, hrolled⟩ := hheld.accepted.take (Nat.pos_of_ne_zero hzero) hlt.le
  have hrolledEq := hrolled.eq
  have hlen := hheld.length_lt
  cases happ : groupApply (logGroup (log.take a.seq)) a h with
  | mk r next =>
    rw [happ] at hforks
    cases r with
    | error e =>
      refine ⟨hstill, (hsame d₂ hrows).1, .inl ?_⟩
      rw [hforks]
      exact ⟨rfl, (hsame d₂ hrows).2⟩
    | ok u =>
      dsimp only at hforks ⊢
      by_cases hlost : log[a.seq].2.toNat < h.toNat
      · rw [if_pos hlost]
        rw [if_pos hlost] at hforks
        refine ⟨hstill, (hsame d₂ hrows).1, .inl ?_⟩
        rw [hforks]
        exact ⟨rfl, (hsame d₂ hrows).2⟩
      rw [if_neg hlost]
      rw [if_neg hlost] at hforks
      rw [← hrolledEq] at happ ⊢
      obtain ⟨hofRolled, hofNext, -, haccepted⟩ := group_of_applied hkind hrolled happ
      have hid : next.id = actGroup a h := hofNext.trans hgroup.symm
      have hn : Next ops.hash B (log.take a.seq) a h bytes next :=
        ⟨hb, ha, hhash, haccepted, by
          rw [List.length_append, List.length_take, List.length_singleton]
          omega, hid ▸ actGroup_mem hb hact⟩
      obtain ⟨r, d₃, hfile, hstill₃, hapart₃, hcases⟩ := fileFork_spec hd hn
        (d := d₂) (by rw [hid]; exact (hsame d₂ hrows).2) hlt hrolled
        (hofRolled.symm.trans hofNext.symm) hofNext.symm
      rw [hid] at hapart₃ hcases
      have hapart := (hsame d₂ hrows).1.trans hapart₃
      rw [hfile]
      rcases hcases with ⟨rfl, hnew⟩ | ⟨⟨e, rfl⟩, hfail, hheld'⟩
      · obtain ⟨told, d₄, hdrop, hstill₄, hapart₄, hheld₄⟩ := dropTail_spec hd
          (s := a.seq + 1) (n := g.seq - a.seq - 1) (actGroup_mem hb hact) (by omega)
          (by rw [List.length_append, List.length_take, List.length_singleton]; omega) hnew
        rw [hgroup] at hdrop
        dsimp only
        rw [hdrop]
        refine ⟨hstill.trans (hstill₃.trans hstill₄), hapart.trans hapart₄, .inl ?_⟩
        rw [hforks]
        exact ⟨rfl, hheld₄⟩
      · refine ⟨hstill.trans hstill₃, hapart, .inr ⟨hfail.of_still hstill, ?_⟩⟩
        rcases hheld' with hheld' | hheld' | hheld'
        · exact ⟨_, hheld', .inl rfl⟩
        · exact ⟨_, hheld', .inr (.inr (.inl ⟨by rw [hforks], rfl⟩))⟩
        · exact ⟨_, hheld', .inr (.inl (by rw [hforks]))⟩

theorem offer_behind (hkind : a.kind ≠ .create) (hl : HoldsLog ops.hash B d.rows (actGroup a h) l)
    (hroom : ∀ log ∈ l, a.seq = log.length → a.seq + 1 < 2 ^ 32) :
    Comes ops B d l a h (groupLogOffer ops d bytes) := by
  have hgroup : actGroup a h = a.group := if_neg hkind
  unfold groupLogOffer
  rw [hact]
  dsimp only
  rw [if_neg hkind]
  obtain ⟨d₁, hrows, hstill, ⟨hget, hwhy⟩ | ⟨log, rfl, hget⟩⟩ := logGet_spec (hgroup ▸ hl)
  · rw [hget]
    have hheld : HoldsLog ops.hash B d₁.rows (actGroup a h) l := by rwa [hrows]
    refine ⟨hstill, fun id' l' hne hl' => ?_, ?_⟩
    · show HoldsLog ops.hash B d₁.rows id' l'
      rwa [hrows]
    rcases hwhy with rfl | hbad
    · refine .inl ?_
      unfold offerLog
      rw [if_neg hkind]
      exact ⟨rfl, hheld⟩
    · exact .inr ⟨.inl fun hnil => hbad (next_of_nil hnil), l, hheld, .inl rfl⟩
  rw [hget]
  dsimp only
  rw [← hrows] at hl
  have hl' := hl
  obtain ⟨g, hheld⟩ := hl'
  have hseq : (logGroup log).seq = log.length := by
    rw [← hheld.accepted.eq]
    exact hheld.accepted.seq_eq hheld.length_lt
  have hcomes : ∀ r, Comes ops B d₁ (some log) a h r → Comes ops B d (some log) a h r := by
    intro r ⟨hs, hap, hrest⟩
    refine ⟨hstill.trans hs, fun id' l' hne hl' => hap id' l' hne (by rwa [hrows]), ?_⟩
    rcases hrest with hexact | ⟨hfail, l', hheld', hstep⟩
    · exact .inl hexact
    · refine .inr ⟨hfail.of_still hstill, l', hheld', ?_⟩
      rcases hstep with heq | heq | heq | ⟨hcreate, -⟩
      · exact .inl heq
      · exact .inr (.inl heq)
      · exact .inr (.inr (.inl heq))
      · exact absurd hcreate hkind
  refine hcomes _ ?_
  rw [hseq]
  by_cases hgap : log.length < a.seq
  · rw [if_pos hgap]
    refine ⟨fun hnil => hnil, Apart.refl _ _ _ _, .inl ?_⟩
    unfold offerLog
    rw [if_neg hkind]
    dsimp only
    rw [if_pos hgap]
    exact ⟨rfl, hl⟩
  rw [if_neg hgap]
  by_cases hhead : a.seq = log.length
  · rw [if_pos hhead]
    have hroom' := hroom log rfl hhead
    have hnew : ∀ g', groupApply (logGroup log) a h = (.ok (), g') →
        g'.id = actGroup a h ∧ Accepted (log ++ [(a, h)]) g' ∧ a.seq = log.length := by
      intro g' happ
      rw [← hheld.accepted.eq] at happ
      obtain ⟨-, hid, -, haccepted⟩ := group_of_applied hkind hheld.accepted happ
      exact ⟨hid.trans hgroup.symm, haccepted, hhead⟩
    obtain ⟨r, d₂, htake, hstill', hapart, hcases⟩ := takeNext_spec hd hb hact
      (hhead ▸ hroom') hnew hheld.acts (fun x hx => hl.saveAct hd (actGroup_mem hb hact)
        hheld.length_lt hx (fun _ log' hlog' => by rw [← Option.mem_some_iff.1 hlog']) bytes) hl
    rw [htake]
    have hlog : offerLog (some log) a h = match groupApply (logGroup log) a h with
        | (.error e, _) => (.error e, some log)
        | (.ok (), _) => (.ok .taken, some (log ++ [(a, h)])) := by
      unfold offerLog
      rw [if_neg hkind]
      dsimp only
      rw [if_neg hgap, List.getElem?_eq_none (by omega)]
    refine ⟨hstill', hapart, ?_⟩
    rcases hcases with ⟨⟨e, herr, rfl⟩, rfl⟩ | ⟨hok, ⟨rfl, hheld'⟩ | ⟨-, hfail, hheld'⟩⟩
    · refine .inl ?_
      rw [hlog, show groupApply (logGroup log) a h = (.error e, (groupApply (logGroup log) a h).2)
        from Prod.ext herr rfl]
      exact ⟨rfl, hl⟩
    · refine .inl ?_
      rw [hlog, show groupApply (logGroup log) a h = (.ok (), (groupApply (logGroup log) a h).2)
        from Prod.ext hok rfl]
      exact ⟨rfl, hheld'⟩
    · refine .inr ⟨hfail, ?_⟩
      rcases hheld' with hheld' | hheld'
      · exact ⟨_, hheld', .inl rfl⟩
      · refine ⟨_, hheld', .inr (.inl ?_)⟩
        rw [hlog, show groupApply (logGroup log) a h = (.ok (), (groupApply (logGroup log) a h).2)
          from Prod.ext hok rfl]
  · rw [if_neg hhead]
    exact offer_fork hd hb hact hkind hl (by omega) hseq

/-- **What an offer comes to**, however its store calls end: to what `offerLog` says, or where
one fails to that, to nothing or to a log between. -/
theorem offer_comes (hl : HoldsLog ops.hash B d.rows (actGroup a h) l)
    (hroom : a.kind ≠ .create → ∀ log ∈ l, a.seq = log.length → a.seq + 1 < 2 ^ 32) :
    Comes ops B d l a h (groupLogOffer ops d bytes) := by
  by_cases hkind : a.kind = .create
  · exact offer_create hd hb hact hkind hl
  · exact offer_behind hd hb hact hkind hl (hroom hkind)

end

/-- What is no act changes nothing. -/
theorem offer_refused (hact : actOf ops bytes = none) :
    groupLogOffer ops d bytes = answered (.error .refused, d) := by
  unfold groupLogOffer
  rw [hact]

end Offers

end Groups
end Fuzznet
