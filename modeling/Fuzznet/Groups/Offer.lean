/-
# Acts offered to the store

`fzn_group_log_offer` of `node/group_log.c`, over a store of which any call may fail: each
act under the hash of its group and place, and the group they say beside them.  A process
stopped in a call is one whose later store calls do nothing, so that what a stop leaves is
what a call leaves whose last operations are all refused.

| offered | answer | saved |
| --- | --- | --- |
| a `create` of no group held | taken | the act, the group |
| the act at the head | taken | the act, the group |
| the act of a place filled | held | |
| a fork of the higher hash | lost | |
| a fork of the lower hash | replaced | the group rolled back, the act, the group; the tail goes |

What the rows of a store say of a group is no row of it, or the group its acts say, filed from
its first place on (`HoldsLog`).  Acts past the head say nothing, so that a save or a removal
of one leaves every log held (`HoldsLog.saveAct`, `HoldsLog.removeAct`), and a group saved over
filed acts is a log held (`HoldsLog.saveGroup`).
-/

import Fuzznet.Groups.Codec
import Fuzznet.Lib.Disk

namespace Fuzznet
namespace Groups

open Wire Lib
open Session (bytes32)

/-- Where the store keeps a group, and an act under its subject. -/
inductive StoreKey
  | group (id : Bytes32)
  | act (subject : Bytes32)
  deriving DecidableEq

abbrev GroupDisk := Disk StoreKey Bytes

/-- `fzn_group_log_ops_t`, but for the store: whether it removes rows, and whether somebody
asks what a fork drops. -/
structure GroupLogOps where
  hash : HashOps
  sign : SignOps
  member : CapId
  removes : Bool
  tells : Bool

/-- `fzn_group_offer_t`. -/
inductive Offer
  | taken
  | held
  | replaced
  | lost
  deriving DecidableEq, Repr

/-- `fzn_group_log_get`. -/
def logGet (d : GroupDisk) (id : Bytes32) : Except GroupLogErr Group × GroupDisk :=
  match d.ask (.group id) with
  | (none, d) => (.error .absent, d)
  | (some bytes, d) =>
    match groupDecode bytes with
    | none => (.error .backend, d)
    | some g => (.ok g, d)

/-- `act_subject`. -/
def actSubject (hash : HashOps) (id : Bytes32) (seq : ℕ) : Option Bytes32 :=
  hash.hash (bytes32 id ++ putBe 4 seq)

/-- `fzn_group_log_act`. -/
def logAct (hash : HashOps) (d : GroupDisk) (id : Bytes32) (seq : ℕ) :
    Except GroupLogErr Bytes × GroupDisk :=
  match actSubject hash id seq with
  | none => (.error .backend, d)
  | some subject =>
    match d.ask (.act subject) with
    | (none, d) => (.error .absent, d)
    | (some bytes, d) => (.ok bytes, d)

/-- `act_save`. -/
def actSave (hash : HashOps) (d : GroupDisk) (id : Bytes32) (seq : ℕ) (bytes : Bytes) :
    Except GroupLogErr Unit × GroupDisk :=
  match actSubject hash id seq with
  | none => (.error .backend, d)
  | some subject =>
    match d.save (.act subject) bytes with
    | (true, d) => (.ok (), d)
    | (false, d) => (.error .backend, d)

/-- `group_save`. -/
def groupSave (d : GroupDisk) (g : Group) : Except GroupLogErr Unit × GroupDisk :=
  match d.save (.group g.id) (groupEncode g) with
  | (true, d) => (.ok (), d)
  | (false, d) => (.error .backend, d)

/-- The `n` acts from place `s` on, applied to `g`. -/
def replayFrom (hash : HashOps) (id : Bytes32) :
    ℕ → ℕ → Group → GroupDisk → Except GroupLogErr Group × GroupDisk
  | 0, _, g, d => (.ok g, d)
  | n + 1, s, g, d =>
    match logAct hash d id s with
    | (.error _, d) => (.error .backend, d)
    | (.ok bytes, d) =>
      match actDecode bytes with
      | none => (.error .backend, d)
      | some a =>
        match actHash a hash with
        | none => (.error .backend, d)
        | some h =>
          match groupApply g a h with
          | (.error _, _) => (.error .backend, d)
          | (.ok (), g) => replayFrom hash id n (s + 1) g d

/-- `replay`: the group as its first `upto` acts say. -/
def replay (hash : HashOps) (d : GroupDisk) (id : Bytes32) (upto : ℕ) :
    Except GroupLogErr Group × GroupDisk :=
  replayFrom hash id upto 0 blank d

/-- The act at `s` told to whoever asks, as far as it is read. -/
def tellDropped (ops : GroupLogOps) (id : Bytes32) (s : ℕ) (d : GroupDisk) :
    List Bytes × GroupDisk :=
  if ops.tells then
    match logAct ops.hash d id s with
    | (.error _, d) => ([], d)
    | (.ok bytes, d) => ([bytes], d)
  else ([], d)

/-- The act at `s` gone, as far as the store removes. -/
def removeAct (ops : GroupLogOps) (id : Bytes32) (s : ℕ) (d : GroupDisk) : GroupDisk :=
  if ops.removes then
    match actSubject ops.hash id s with
    | none => d
    | some subject => (d.remove (.act subject)).2
  else d

/-- The `n` acts a fork drops, from place `s` on. -/
def dropTail (ops : GroupLogOps) (id : Bytes32) : ℕ → ℕ → GroupDisk → List Bytes × GroupDisk
  | 0, _, d => ([], d)
  | n + 1, s, d =>
    match tellDropped ops id s d with
    | (told, d) =>
      match dropTail ops id n (s + 1) (removeAct ops id s d) with
      | (more, d) => (told ++ more, d)

/-- The answer to an act offered, the acts dropped with those told of, and the store. -/
structure OfferResult where
  answer : Except GroupLogErr Offer
  dropped : ℕ
  told : List Bytes
  disk : GroupDisk

/-- An answer that drops nothing. -/
def answered (x : Except GroupLogErr Offer × GroupDisk) : OfferResult := ⟨x.1, 0, [], x.2⟩

/-- An act filed at its place, then the group behind it. -/
def fileNext (ops : GroupLogOps) (d : GroupDisk) (id : Bytes32) (seq : ℕ) (bytes : Bytes)
    (g : Group) : Except GroupLogErr Unit × GroupDisk :=
  match actSave ops.hash d id seq bytes with
  | (.error e, d) => (.error e, d)
  | (.ok (), d) => groupSave d g

/-- An act applied to the group `g`, and filed. -/
def takeNext (ops : GroupLogOps) (d : GroupDisk) (g : Group) (a : GroupAct) (hash : Bytes32)
    (bytes : Bytes) : Except GroupLogErr Offer × GroupDisk :=
  match groupApply g a hash with
  | (.error e, _) => (.error e, d)
  | (.ok (), g) =>
    match fileNext ops d g.id a.seq bytes g with
    | (.error e, d) => (.error e, d)
    | (.ok (), d) => (.ok .taken, d)

/-- The act at the place of `a`, with its hash: what a fork is with. -/
def actThere (ops : GroupLogOps) (d : GroupDisk) (a : GroupAct) :
    Option (Bytes × Bytes32) × GroupDisk :=
  match logAct ops.hash d a.group a.seq with
  | (.error _, d) => (none, d)
  | (.ok held, d) => ((actDecode held).bind fun there => (actHash there ops.hash).map (held, ·), d)

/-- The log rolled back to the place of `a`, then the act, then the group behind it. -/
def fileFork (ops : GroupLogOps) (d : GroupDisk) (rolled next : Group) (a : GroupAct)
    (bytes : Bytes) : Except GroupLogErr Unit × GroupDisk :=
  match groupSave d rolled with
  | (.error e, d) => (.error e, d)
  | (.ok (), d) => fileNext ops d a.group a.seq bytes next

/-- An act offered at a place of `g` already filled. -/
def offerFork (ops : GroupLogOps) (d : GroupDisk) (g : Group) (a : GroupAct) (hash : Bytes32)
    (bytes : Bytes) : OfferResult :=
  if a.seq = 0 then answered (.error .backend, d)
  else
    match actThere ops d a with
    | (none, d) => answered (.error .backend, d)
    | (some (held, heldHash), d) =>
      if hash = heldHash then answered (.ok .held, d)
      else
        match replay ops.hash d a.group a.seq with
        | (.error e, d) => answered (.error e, d)
        | (.ok rolled, d) =>
          match groupApply rolled a hash with
          | (.error e, _) => answered (.error e, d)
          | (.ok (), next) =>
            if heldHash.toNat < hash.toNat then answered (.ok .lost, d)
            else
              match fileFork ops d rolled next a bytes with
              | (.error e, d) => answered (.error e, d)
              | (.ok (), d) =>
                match dropTail ops a.group (g.seq - a.seq - 1) (a.seq + 1) d with
                | (told, d) =>
                  ⟨.ok .replaced, g.seq - a.seq, if ops.tells then held :: told else told, d⟩

/-- An act that is one: decoded, verified, with its hash. -/
def actOf (ops : GroupLogOps) (bytes : Bytes) : Option (GroupAct × Bytes32) :=
  (actDecode bytes).bind fun a =>
    if actVerify a ops.sign ops.member then (actHash a ops.hash).map (a, ·) else none

/-- `fzn_group_log_offer`. -/
def groupLogOffer (ops : GroupLogOps) (d : GroupDisk) (bytes : Bytes) : OfferResult :=
  match actOf ops bytes with
  | none => answered (.error .refused, d)
  | some (a, hash) =>
    if a.kind = .create then
      match logGet d hash with
      | (.ok _, d) => answered (.ok .held, d)
      | (.error _, d) => answered (takeNext ops d blank a hash bytes)
    else
      match logGet d a.group with
      | (.error e, d) => answered (.error e, d)
      | (.ok g, d) =>
        if g.seq < a.seq then answered (.error .gap, d)
        else if a.seq = g.seq then answered (takeNext ops d g a hash bytes)
        else offerFork ops d g a hash bytes

/-! ## The log a store holds -/

/-- The acts of a log, each with its hash. -/
abbrev Log := List (GroupAct × Bytes32)

abbrev GroupRows := AList fun _ : StoreKey => Bytes

/-- The group an act is of. -/
def actGroup (a : GroupAct) (hash : Bytes32) : Bytes32 :=
  if a.kind = .create then hash else a.group

/-- The groups of acts offered. -/
def offeredIds (hash : HashOps) (B : Set Bytes) : Set Bytes32 :=
  {id | ∃ bytes ∈ B, ∃ a h, actDecode bytes = some a ∧ actHash a hash = some h ∧
    id = actGroup a h}

/-- The hash tells apart the acts offered, and the places of their groups. -/
structure Distinct (hash : HashOps) (B : Set Bytes) : Prop where
  acts : hash.InjOn B
  places : hash.InjOn {i | ∃ id ∈ offeredIds hash B, ∃ s < 2 ^ 32, i = bytes32 id ++ putBe 4 s}

section Held

variable {hash : HashOps} {B : Set Bytes} {rows rows' : GroupRows} {d : GroupDisk}
variable {id id₀ x : Bytes32} {s s₀ : ℕ} {log : Log} {l : Option Log} {g g' : Group}
variable {a : GroupAct} {h : Bytes32} {bytes : Bytes}

/-- The act filed at a place of a group. -/
def actAt (hash : HashOps) (rows : GroupRows) (id : Bytes32) (s : ℕ) : Option Bytes :=
  (actSubject hash id s).bind fun x => rows.lookup (.act x)

/-- An act offered is filed at a place. -/
def Filed (hash : HashOps) (B : Set Bytes) (rows : GroupRows) (id : Bytes32) (s : ℕ)
    (x : GroupAct × Bytes32) : Prop :=
  ∃ bytes ∈ B, actAt hash rows id s = some bytes ∧ actDecode bytes = some x.1 ∧
    actHash x.1 hash = some x.2

/-- A store holds a log: the group it says, and its acts at their places. -/
structure Holds (hash : HashOps) (B : Set Bytes) (rows : GroupRows) (id : Bytes32) (log : Log)
    (g : Group) : Prop where
  accepted : Accepted log g
  group_id : g.id = id
  length_lt : log.length < 2 ^ 32
  group_row : rows.lookup (.group id) = some (groupEncode g)
  acts : ∀ s x, log[s]? = some x → Filed hash B rows id s x

/-- What a store holds of a group. -/
def HoldsLog (hash : HashOps) (B : Set Bytes) (rows : GroupRows) (id : Bytes32) :
    Option Log → Prop
  | none => rows.lookup (.group id) = none
  | some log => ∃ g, Holds hash B rows id log g

/-! ## Acts and their bytes -/

theorem hash_of_decode (ha : actDecode bytes = some a) : actHash a hash = hash.hash bytes := by
  unfold actHash
  rw [actEncode_of_decode ha]
  rfl

/-- The first act of a log is the `create` whose hash names it. -/
theorem Accepted.head (hlog : Accepted log g) :
    ∃ a, log[0]? = some (a, g.id) ∧ a.kind = .create ∧ a.seq = 0 ∧ a.group = 0 ∧ a.prev = 0 := by
  induction hlog with
  | @create g g' a hash ha happ =>
    obtain ⟨hseq, hgroup, hprev, rfl⟩ := apply_of_create ha happ
    exact ⟨a, rfl, ha, hseq, hgroup, hprev⟩
  | @next log g g' a hash hlog ha happ ih =>
    obtain ⟨c, hc, hkind, hplace⟩ := ih
    have hid : g'.id = g.id := by
      obtain ⟨hcreate, -⟩ | ⟨-, -, -, -, -, next, hstep, rfl⟩ := groupApply_cases happ
      · exact absurd hcreate ha
      · exact (hstep.place hlog.fits.epoch).1
    refine ⟨c, ?_, hkind, hplace⟩
    rw [hid, List.getElem?_append_left (List.length_pos_iff.2 hlog.ne_nil)]
    exact hc

/-- Every start of a log is a log. -/
theorem Accepted.take (hlog : Accepted log g) {k : ℕ} (hk : 0 < k) (hle : k ≤ log.length) :
    ∃ g₀, Accepted (log.take k) g₀ := by
  induction hlog with
  | @create g g' a hash ha happ =>
    rw [List.take_of_length_le (by rw [List.length_singleton]; exact hk)]
    exact ⟨g', .create ha happ⟩
  | @next log g g' a hash hlog ha happ ih =>
    rw [List.length_append, List.length_singleton] at hle
    rcases Nat.lt_or_ge log.length k with hlt | hge
    · rw [List.take_of_length_le (by rw [List.length_append, List.length_singleton]; omega)]
      exact ⟨g', hlog.next ha happ⟩
    · rw [List.take_append_of_le_length hge]
      exact ih hge

/-- An act of a log was taken behind those before it. -/
theorem Accepted.act (hlog : Accepted log g) {k : ℕ} (hk : 0 < k) {x : GroupAct × Bytes32}
    (hx : log[k]? = some x) : ∃ g₀ g₁, Accepted (log.take k) g₀ ∧ x.1.kind ≠ .create ∧
      groupApply g₀ x.1 x.2 = (.ok (), g₁) ∧ Accepted (log.take (k + 1)) g₁ := by
  have hlt : k < log.length := by
    by_contra hge
    rw [List.getElem?_eq_none (not_lt.1 hge)] at hx
    cases hx
  obtain ⟨g₁, h₁⟩ := hlog.take (Nat.succ_pos k) hlt
  have hsnoc : log.take (k + 1) = log.take k ++ [x] := by
    rw [List.take_add_one, hx]
    rfl
  have h₁' := h₁
  rw [hsnoc] at h₁'
  obtain ⟨g₀, h₀, hkind, happ⟩ := h₁'.last fun hnil => by
    have hlen := congrArg List.length hnil
    rw [List.length_take, List.length_nil] at hlen
    omega
  exact ⟨g₀, g₁, h₀, hkind, happ, h₁⟩

theorem Accepted.seq_eq (hlog : Accepted log g) (hlen : log.length < 2 ^ 32) :
    g.seq = log.length := (hlog.kept hlen).seq

/-! ## What a log held is under -/

theorem Holds.id_mem (hh : Holds hash B rows id log g) : id ∈ offeredIds hash B := by
  obtain ⟨a, ha, hkind, -⟩ := hh.accepted.head
  obtain ⟨bytes, hb, -, hdecode, hhash⟩ := hh.acts 0 _ ha
  refine ⟨bytes, hb, a, g.id, hdecode, hhash, ?_⟩
  rw [actGroup, if_pos hkind, hh.group_id]

theorem Holds.lt (hh : Holds hash B rows id log g) {x : GroupAct × Bytes32}
    (hx : log[s]? = some x) : s < 2 ^ 32 := by
  have hlt := hh.length_lt
  by_contra hge
  rw [List.getElem?_eq_none (by omega)] at hx
  cases hx

/-- Two places of offered groups are under two subjects. -/
theorem Distinct.subject_inj (hd : Distinct hash B) (hid : id ∈ offeredIds hash B)
    (hs : s < 2 ^ 32) (hid₀ : id₀ ∈ offeredIds hash B) (hs₀ : s₀ < 2 ^ 32)
    (hx : actSubject hash id s = some x) (hx₀ : actSubject hash id₀ s₀ = some x) :
    id = id₀ ∧ s = s₀ := by
  have heq := hd.places _ ⟨id, hid, s, hs, rfl⟩ _ ⟨id₀, hid₀, s₀, hs₀, rfl⟩ x hx hx₀
  obtain ⟨hleft, hright⟩ := List.append_inj heq (by
    rw [Session.length_bytes32, Session.length_bytes32])
  refine ⟨?_, ?_⟩
  · have hnat := congrArg (getBe · 0 32) hleft
    unfold bytes32 at hnat
    have hback : ∀ b : Bytes32, getBe (putBe 32 b.toNat) 0 32 = b.toNat := fun b => by
      have h := getBe_putBe_of_lt (n := 32) [] (toNat_lt_bytes b)
      rwa [List.append_nil] at h
    rw [hback, hback] at hnat
    exact BitVec.eq_of_toNat_eq hnat
  · have hnat := congrArg (getBe · 0 4) hright
    have hback : ∀ v < 2 ^ 32, getBe (putBe 4 v) 0 4 = v := fun v hv => by
      have h := getBe_putBe_of_lt (n := 4) [] hv
      rwa [List.append_nil] at h
    rwa [hback s hs, hback s₀ hs₀] at hnat

/-- Rows that differ at one act past the head, or of another group, hold the same log. -/
theorem HoldsLog.frame (hl : HoldsLog hash B rows id l) (hd : Distinct hash B)
    (hid₀ : id₀ ∈ offeredIds hash B) (hs₀ : s₀ < 2 ^ 32) (hx : actSubject hash id₀ s₀ = some x)
    (hpast : id = id₀ → ∀ log ∈ l, log.length ≤ s₀)
    (hgroup : ∀ i, rows'.lookup (.group i) = rows.lookup (.group i))
    (hact : ∀ y, y ≠ x → rows'.lookup (.act y) = rows.lookup (.act y)) :
    HoldsLog hash B rows' id l := by
  cases l with
  | none => exact (hgroup id).trans hl
  | some log =>
    obtain ⟨g, hh⟩ := hl
    refine ⟨g, hh.accepted, hh.group_id, hh.length_lt, (hgroup id).trans hh.group_row,
      fun s y hy => ?_⟩
    obtain ⟨bytes, hb, hat, hdecode, hhash⟩ := hh.acts s y hy
    refine ⟨bytes, hb, ?_, hdecode, hhash⟩
    unfold actAt at hat ⊢
    obtain ⟨z, hz, hrow⟩ := Option.bind_eq_some_iff.1 hat
    rw [hz, Option.bind_some, hact z ?_]
    · exact hrow
    · rintro rfl
      obtain ⟨rfl, rfl⟩ := hd.subject_inj hh.id_mem (hh.lt hy) hid₀ hs₀ hz hx
      have hle := hpast rfl log rfl
      rw [List.getElem?_eq_none hle] at hy
      cases hy

section

variable (hl : HoldsLog hash B d.rows id l) (hd : Distinct hash B) (hid₀ : id₀ ∈ offeredIds hash B)
  (hs₀ : s₀ < 2 ^ 32) (hx : actSubject hash id₀ s₀ = some x)
  (hpast : id = id₀ → ∀ log ∈ l, log.length ≤ s₀)
include hl hd hid₀ hs₀ hx hpast

theorem HoldsLog.saveAct (bytes : Bytes) : HoldsLog hash B (d.save (.act x) bytes).2.rows id l := by
  rcases d.save_rows (.act x) bytes with heq | ⟨-, heq⟩ <;> rw [heq]
  · exact hl.frame hd hid₀ hs₀ hx hpast (fun i => AList.lookup_insert_ne (by simp))
      fun y hy => AList.lookup_insert_ne (by simpa using hy)
  · exact hl

theorem HoldsLog.removeAct : HoldsLog hash B (d.remove (.act x)).2.rows id l := by
  rcases d.remove_rows (.act x) with heq | ⟨-, heq⟩ <;> rw [heq]
  · exact hl.frame hd hid₀ hs₀ hx hpast (fun i => AList.lookup_erase_ne (by simp))
      fun y hy => AList.lookup_erase_ne (by simpa using hy)
  · exact hl

end

/-- A group saved leaves the other groups. -/
theorem HoldsLog.saveGroup_ne (hl : HoldsLog hash B d.rows id l) (hne : id ≠ id₀)
    (bytes : Bytes) : HoldsLog hash B (d.save (.group id₀) bytes).2.rows id l := by
  rcases d.save_rows (.group id₀) bytes with heq | ⟨-, heq⟩ <;> rw [heq]
  · have hgroup : (d.rows.insert (.group id₀) bytes).lookup (.group id) =
        d.rows.lookup (.group id) := AList.lookup_insert_ne (by simpa using hne)
    have hact : ∀ y, (d.rows.insert (.group id₀) bytes).lookup (.act y) =
        d.rows.lookup (.act y) := fun y => AList.lookup_insert_ne (by simp)
    cases l with
    | none => exact hgroup.trans hl
    | some log =>
      obtain ⟨g, hh⟩ := hl
      refine ⟨g, hh.accepted, hh.group_id, hh.length_lt, hgroup.trans hh.group_row,
        fun s y hy => ?_⟩
      obtain ⟨bytes', hb, hat, hdecode, hhash⟩ := hh.acts s y hy
      refine ⟨bytes', hb, ?_, hdecode, hhash⟩
      unfold actAt at hat ⊢
      simpa only [hact] using hat
  · exact hl

/-- **A group saved over the acts that say it** is a log held, where it is saved. -/
theorem HoldsLog.saveGroup (hl : HoldsLog hash B d.rows id l) (hlog : Accepted log g)
    (hid : g.id = id) (hlen : log.length < 2 ^ 32)
    (hacts : ∀ s x, log[s]? = some x → Filed hash B d.rows id s x) :
    HoldsLog hash B (d.save (.group g.id) (groupEncode g)).2.rows id (some log) ∨
      (d.save (.group g.id) (groupEncode g)).1 = false ∧
        HoldsLog hash B (d.save (.group g.id) (groupEncode g)).2.rows id l := by
  rcases d.save_rows (.group g.id) (groupEncode g) with heq | ⟨hno, heq⟩
  · refine .inl ⟨g, hlog, hid, hlen, ?_, fun s y hy => ?_⟩
    · rw [heq, hid, AList.lookup_insert]
    · obtain ⟨bytes, hb, hat, hdecode, hhash⟩ := hacts s y hy
      refine ⟨bytes, hb, ?_, hdecode, hhash⟩
      rw [heq]
      unfold actAt at hat ⊢
      obtain ⟨z, hz, hrow⟩ := Option.bind_eq_some_iff.1 hat
      rw [hz, Option.bind_some, AList.lookup_insert_ne (by simp)]
      exact hrow
  · refine .inr ⟨hno, ?_⟩
    rw [heq]
    exact hl

end Held

end Groups
end Fuzznet
