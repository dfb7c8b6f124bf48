/-
# A store's operations and what they promise

`persist/persist.h`.  Rows stand under a slot and a subject, or under a slot alone; a store
is reached through its operations, `fzn_persist_ops_t`, over a state of its own.  What
stands behind them is not fixed here: a `Store` is any operations with the rows they hold
and the promises the header makes of them, so a layer over a store is proved over every
store at once.

A store may fail at any time.  A load that fails reads nothing, a save or a removal that
fails leaves its row as it was or as it was to be, and a listing or a walk that fails says
nothing of what is held.
-/

import Fuzznet.Lib.Disk
import Fuzznet.Wire.Bytes
import Mathlib.Data.List.Nodup

namespace Fuzznet
namespace Persist

open Wire (Bytes Bytes32)

/-- `fzn_persist_slot_t`. -/
inductive PersistSlot
  | trust | ownPrekey | peer | sendChain | recvChain | nodePeer | ownIdentity | pairedNode
  | issuedRevocation | vote | rootChange | ownRoot | adminConfirm | ownAdmin | note | notePurge
  | notePartner | contact | noteShare | sharedNote | receivedShare | logRule | adminRetention
  | roster | fileShare | succession | notePurged | noteWrap | opBytes | conversationKey
  | messageState | messageIndex | messageLine | setting | grant | journalSpine | journalBase
  | bucket | bucketIds | bucketItem | siblingPrekey | noteHistory | hostHeard | routing
  | contactDevice | contactRequest | contactAsked | groupAct | group | groupLabel | groupEpoch
  | groupLine | groupLineHead | groupLineSender | streamRecord | streamHead | streamGrant | fileRef
  | rootAt | contactRevocation | contactEstate | fileHold | attachment | contactRefused | stage
  | groupLineWater
  deriving DecidableEq, Repr

/-- A slot's number. -/
def PersistSlot.number : PersistSlot → ℕ
  | .trust => 1 | .ownPrekey => 2 | .peer => 3 | .sendChain => 4 | .recvChain => 5 | .nodePeer => 6
  | .ownIdentity => 7 | .pairedNode => 8 | .issuedRevocation => 9 | .vote => 11 | .rootChange => 13
  | .ownRoot => 14 | .adminConfirm => 15 | .ownAdmin => 16 | .note => 17 | .notePurge => 19
  | .notePartner => 20 | .contact => 21 | .noteShare => 22 | .sharedNote => 23
  | .receivedShare => 24 | .logRule => 26 | .adminRetention => 27 | .roster => 28 | .fileShare => 29
  | .succession => 30 | .notePurged => 31 | .noteWrap => 32 | .opBytes => 33
  | .conversationKey => 34 | .messageState => 35 | .messageIndex => 36 | .messageLine => 37
  | .setting => 38 | .grant => 39 | .journalSpine => 40 | .journalBase => 41 | .bucket => 42
  | .bucketIds => 43 | .bucketItem => 44 | .siblingPrekey => 45 | .noteHistory => 46
  | .hostHeard => 47 | .routing => 48 | .contactDevice => 49 | .contactRequest => 50
  | .contactAsked => 51 | .groupAct => 52 | .group => 53 | .groupLabel => 54 | .groupEpoch => 55
  | .groupLine => 56 | .groupLineHead => 57 | .groupLineSender => 58 | .streamRecord => 59
  | .streamHead => 60 | .streamGrant => 61 | .fileRef => 62 | .rootAt => 63
  | .contactRevocation => 64 | .contactEstate => 65 | .fileHold => 66 | .attachment => 67
  | .contactRefused => 68 | .stage => 69 | .groupLineWater => 70

/-- `fzn_rank_t`: what goes first when things get hairy. -/
inductive Rank
  | trace | refetch | user | control | identity
  deriving DecidableEq, Repr

def Rank.val : Rank → ℕ
  | .trace => 0 | .refetch => 1 | .user => 2 | .control => 3 | .identity => 4

/-- `fzn_persist_slot_rank`. -/
def slotRank : PersistSlot → Rank
  | .hostHeard | .routing | .streamRecord | .streamHead | .groupLineWater => .trace
  | .noteHistory | .groupLine | .groupLineHead | .groupLineSender => .refetch
  | .note | .notePurge | .notePartner | .noteShare | .sharedNote | .notePurged | .receivedShare |
    .fileShare | .fileRef | .fileHold | .attachment | .messageState | .messageIndex | .messageLine |
    .bucket | .bucketIds | .bucketItem | .groupLabel => .user
  | .peer | .sendChain | .recvChain | .nodePeer | .pairedNode | .setting | .grant | .journalSpine |
    .journalBase | .opBytes | .siblingPrekey | .contact | .contactDevice | .contactEstate |
    .contactRequest | .contactAsked | .contactRefused | .logRule | .adminRetention | .group |
    .groupAct | .groupEpoch | .conversationKey | .noteWrap | .streamGrant | .stage => .control
  | _ => .identity

/-- `subject[i]`. -/
def byteAt (k : Bytes32) (i : ℕ) : ℕ := (k.toNat >>> (8 * (31 - i))) % 256

/-- `FZN_PERSIST_EACH_FALLBACK`. -/
def eachFallback : ℕ := 4096

/-- `fzn_persist_ops_t`.  A subject is 32 bytes, or none for a row of the whole host; a
load is of at most so many bytes, a listing of at most so many subjects.  A walk is the
subjects it has for its caller and whether it comes to its end. -/
structure PersistOps (σ : Type) where
  load : σ → PersistSlot → Option Bytes32 → ℕ → Option Bytes × σ
  save : σ → PersistSlot → Option Bytes32 → Bytes → Bool × σ
  list : Option (σ → PersistSlot → ℕ → Option (List Bytes32) × σ)
  remove : Option (σ → PersistSlot → Option Bytes32 → Bool × σ)
  each : Option (σ → PersistSlot → (List Bytes32 × Bool) × σ)

/-- The subjects of the rows of a slot, each once. -/
structure Lists (rows : Option Bytes32 → Option Bytes) (ks : List Bytes32) : Prop where
  nodup : ks.Nodup
  mem_iff : ∀ k, k ∈ ks ↔ ∃ b, rows (some k) = some b

/-- A walk hands out rows the slot holds, each once, and all of them if it comes to its
end. -/
structure Walked (rows : Option Bytes32 → Option Bytes) (w : List Bytes32 × Bool) : Prop where
  nodup : w.1.Nodup
  held : ∀ k ∈ w.1, ∃ b, rows (some k) = some b
  all : w.2 = true → ∀ k b, rows (some k) = some b → k ∈ w.1

theorem Lists.walked {rows : Option Bytes32 → Option Bytes} {ks : List Bytes32}
    (h : Lists rows ks) : Walked rows (ks, true) :=
  ⟨h.nodup, fun k hk => (h.mem_iff k).1 hk, fun _ k b hb => (h.mem_iff k).2 ⟨b, hb⟩⟩

/-- Operations with the rows they hold. -/
structure Store (σ : Type) extends PersistOps σ where
  rows : σ → PersistSlot → Option Bytes32 → Option Bytes
  load_rows : ∀ s slot k cap, rows (load s slot k cap).2 = rows s
  load_eq : ∀ s slot k cap b, (load s slot k cap).1 = some b →
    rows s slot k = some b ∧ b.length ≤ cap
  save_other : ∀ s slot k b slot' k', (slot', k') ≠ (slot, k) →
    rows (save s slot k b).2 slot' k' = rows s slot' k'
  save_self : ∀ s slot k b, rows (save s slot k b).2 slot k = some b ∨
    (save s slot k b).1 = false ∧ rows (save s slot k b).2 slot k = rows s slot k
  remove_other : ∀ f ∈ remove, ∀ s slot k slot' k', (slot', k') ≠ (slot, k) →
    rows (f s slot k).2 slot' k' = rows s slot' k'
  remove_self : ∀ f ∈ remove, ∀ s slot k, rows (f s slot k).2 slot k = none ∨
    (f s slot k).1 = false ∧ rows (f s slot k).2 slot k = rows s slot k
  list_rows : ∀ f ∈ list, ∀ s slot max, rows (f s slot max).2 = rows s
  list_eq : ∀ f ∈ list, ∀ s slot max ks, (f s slot max).1 = some ks →
    Lists (rows s slot) ks ∧ ks.length ≤ max
  each_rows : ∀ f ∈ each, ∀ s slot, rows (f s slot).2 = rows s
  each_eq : ∀ f ∈ each, ∀ s slot, Walked (rows s slot) (f s slot).1

/-- What a load of at most `cap` bytes reads of a row. -/
def fitting (cap : ℕ) (row : Option Bytes) : Option Bytes := row.filter fun b => b.length ≤ cap

theorem fitting_some (cap : ℕ) (b : Bytes) :
    fitting cap (some b) = if cap < b.length then none else some b := by
  rw [fitting, Option.filter_some]
  by_cases h : cap < b.length
  · rw [if_pos h, if_neg (by simpa using h)]
  · rw [if_neg h, if_pos (by simpa using h)]

/-- What a walk's `fn` hears of the subjects there are for it, and whether it stopped. -/
def heard {τ : Type} (fn : τ → Bytes32 → Bool × τ) : τ → List Bytes32 → List Bytes32 × Bool
  | _, [] => ([], false)
  | t, k :: ks =>
    if (fn t k).1 then (k :: (heard fn (fn t k).2 ks).1, (heard fn (fn t k).2 ks).2)
    else ([k], true)

namespace PersistOps

variable {σ : Type} (o : PersistOps σ)

/-- `ops->list`, where a store may have none. -/
def listing (s : σ) (slot : PersistSlot) (max : ℕ) : Option (List Bytes32) × σ :=
  match o.list with
  | some f => f s slot max
  | none => (none, s)

/-- The walk of `fzn_persist_each`, through `each`, or through `list` into a room of its
own. -/
def walk (s : σ) (slot : PersistSlot) : (List Bytes32 × Bool) × σ :=
  match o.each with
  | some f => f s slot
  | none =>
    match o.listing s slot eachFallback with
    | (some ks, s) => ((ks, true), s)
    | (none, s) => (([], false), s)

/-- `fzn_persist_each`: what `fn` hears, and whether the walk ended, whole or where `fn`
stopped it. -/
def persistEach {τ : Type} (s : σ) (slot : PersistSlot) (fn : τ → Bytes32 → Bool × τ) (t : τ) :
    (List Bytes32 × Bool) × σ :=
  (((heard fn t (o.walk s slot).1.1).1,
    (heard fn t (o.walk s slot).1.1).2 || (o.walk s slot).1.2), (o.walk s slot).2)

end PersistOps

theorem heard_prefix {τ : Type} (fn : τ → Bytes32 → Bool × τ) (t : τ) (ks : List Bytes32) :
    (heard fn t ks).1 <+: ks := by
  induction ks generalizing t with
  | nil => exact List.prefix_rfl
  | cons k ks ih =>
    unfold heard
    split
    · exact List.cons_prefix_cons.2 ⟨rfl, ih _⟩
    · exact List.cons_prefix_cons.2 ⟨rfl, List.nil_prefix⟩

/-- A walk its `fn` did not stop is heard whole. -/
theorem heard_of_not_stopped {τ : Type} (fn : τ → Bytes32 → Bool × τ) (t : τ)
    (ks : List Bytes32) (h : (heard fn t ks).2 = false) : (heard fn t ks).1 = ks := by
  induction ks generalizing t with
  | nil => rfl
  | cons k ks ih =>
    unfold heard at h ⊢
    split
    next hgo =>
      rw [if_pos hgo] at h
      rw [ih _ h]
    next hstop => rw [if_neg hstop] at h; cases h

/-- **What any `fn` hears of a walk is held, each once, and all of it where the walk ended
and `fn` did not stop it.** -/
theorem PersistOps.persistEach_eq {σ τ : Type} (o : PersistOps σ) {s : σ} {slot : PersistSlot}
    {rows : Option Bytes32 → Option Bytes} (hwalk : Walked rows (o.walk s slot).1)
    (fn : τ → Bytes32 → Bool × τ) (t : τ) : (o.persistEach s slot fn t).1.1.Nodup ∧
      (∀ k ∈ (o.persistEach s slot fn t).1.1, ∃ b, rows (some k) = some b) ∧
      ((o.persistEach s slot fn t).1.2 = true →
        (heard fn t (o.walk s slot).1.1).2 = true ∨
          Lists rows (o.persistEach s slot fn t).1.1) := by
  have hpre := heard_prefix fn t (o.walk s slot).1.1
  have hheld : ∀ k ∈ (heard fn t (o.walk s slot).1.1).1, ∃ b, rows (some k) = some b :=
    fun k hk => hwalk.held k (hpre.subset hk)
  refine ⟨hwalk.nodup.sublist hpre.sublist, hheld, fun hend => ?_⟩
  cases hstop : (heard fn t (o.walk s slot).1.1).2 with
  | true => exact Or.inl rfl
  | false =>
    have hwhole : (o.walk s slot).1.2 = true := by
      unfold PersistOps.persistEach at hend
      rwa [hstop, Bool.false_or] at hend
    refine Or.inr ⟨hwalk.nodup.sublist hpre.sublist, fun k => ⟨hheld k, ?_⟩⟩
    rintro ⟨b, hb⟩
    have hmem := hwalk.all hwhole k b hb
    rwa [← heard_of_not_stopped fn t _ hstop] at hmem

namespace Store

variable {σ : Type} (o : Store σ)

/-- A load reads its row where it fits, or nothing. -/
theorem load_fitting (s : σ) (slot : PersistSlot) (k : Option Bytes32) (cap : ℕ) :
    (o.load s slot k cap).1 = fitting cap (o.rows s slot k) ∨ (o.load s slot k cap).1 = none := by
  cases hl : (o.load s slot k cap).1 with
  | none => exact Or.inr rfl
  | some b =>
    obtain ⟨hrow, hlen⟩ := o.load_eq _ _ _ _ _ hl
    left
    rw [hrow, fitting_some, if_neg (Nat.not_lt.2 hlen)]

theorem save_done {s : σ} {slot : PersistSlot} {k : Option Bytes32} {b : Bytes}
    (h : (o.save s slot k b).1 = true) : o.rows (o.save s slot k b).2 slot k = some b := by
  rcases o.save_self s slot k b with hrow | ⟨hno, -⟩
  · exact hrow
  · rw [hno] at h
    cases h

theorem remove_done {f : σ → PersistSlot → Option Bytes32 → Bool × σ} (hf : f ∈ o.remove)
    {s : σ} {slot : PersistSlot} {k : Option Bytes32} (h : (f s slot k).1 = true) :
    o.rows (f s slot k).2 slot k = none := by
  rcases o.remove_self f hf s slot k with hrow | ⟨hno, -⟩
  · exact hrow
  · rw [hno] at h
    cases h

theorem listing_rows (s : σ) (slot : PersistSlot) (max : ℕ) :
    o.rows (o.listing s slot max).2 = o.rows s := by
  unfold PersistOps.listing
  split
  next f hf => exact o.list_rows f hf s slot max
  next => rfl

theorem listing_eq {s : σ} {slot : PersistSlot} {max : ℕ} {ks : List Bytes32}
    (h : (o.listing s slot max).1 = some ks) : Lists (o.rows s slot) ks ∧ ks.length ≤ max := by
  unfold PersistOps.listing at h
  split at h
  next f hf => exact o.list_eq f hf s slot max ks h
  next => cases h

theorem walk_rows (s : σ) (slot : PersistSlot) : o.rows (o.walk s slot).2 = o.rows s := by
  have hlist := o.listing_rows s slot eachFallback
  unfold PersistOps.walk
  split
  next f hf => exact o.each_rows f hf s slot
  next =>
    split
    all_goals
      next heq => rwa [heq] at hlist

/-- **Every walk of a store hands out what the slot holds.** -/
theorem walk_eq (s : σ) (slot : PersistSlot) : Walked (o.rows s slot) (o.walk s slot).1 := by
  unfold PersistOps.walk
  split
  next f hf => exact o.each_eq f hf s slot
  next =>
    split
    next ks s' heq => exact (o.listing_eq (by rw [heq])).1.walked
    next => exact ⟨List.nodup_nil, nofun, nofun⟩

end Store

/-! ## A disk as a store -/

/-- The rows of a disk under their slots and subjects. -/
abbrev RowDisk := Lib.Disk (PersistSlot × Option Bytes32) Bytes

/-- The subject of a row of the slot. -/
def subjectIn (slot : PersistSlot) (key : PersistSlot × Option Bytes32) : Option Bytes32 :=
  if key.1 = slot then key.2 else none

theorem subjectIn_eq_some_iff {slot : PersistSlot} {key : PersistSlot × Option Bytes32}
    {k : Bytes32} : subjectIn slot key = some k ↔ key = (slot, some k) := by
  obtain ⟨slot', k'⟩ := key
  simp [subjectIn]

/-- **A disk is a store**, however its operations end. -/
def diskStore : Store RowDisk where
  load d slot k cap := (fitting cap (d.ask (slot, k)).1, (d.ask (slot, k)).2)
  save d slot k b := d.save (slot, k) b
  list := some fun d slot max => d.list (subjectIn slot) max
  remove := some fun d slot k => d.remove (slot, k)
  each := none
  rows d slot k := d.load (slot, k)
  load_rows _ _ _ _ := rfl
  load_eq d slot k cap b h := by
    obtain ⟨hrow, hlen⟩ := Option.filter_eq_some_iff.1 h
    exact ⟨Lib.Disk.load_of_ask hrow, by simpa using hlen⟩
  save_other _ _ _ _ _ _ hne := Lib.Disk.load_save_ne hne
  save_self d _ _ _ := d.load_save_self _ _
  remove_other f hf _ _ _ _ _ hne := by
    obtain rfl := Option.some.inj hf
    exact Lib.Disk.load_remove_ne hne
  remove_self f hf d _ _ := by
    obtain rfl := Option.some.inj hf
    exact d.load_remove_self _
  list_rows f hf d slot max := by
    obtain rfl := Option.some.inj hf
    funext slot' k'
    exact d.load_list _ _ _
  list_eq f hf d slot max ks hks := by
    obtain rfl := Option.some.inj hf
    refine ⟨⟨?_, fun k => ?_⟩, Lib.Disk.length_of_list hks⟩
    · rw [Lib.Disk.eq_of_list hks]
      refine d.rows.keys_nodup.filterMap fun key key' k hk hk' => ?_
      rw [subjectIn_eq_some_iff.1 hk, subjectIn_eq_some_iff.1 hk']
    · rw [Lib.Disk.mem_of_list hks]
      simp only [subjectIn_eq_some_iff]
      exact ⟨fun ⟨_, b, heq, hb⟩ => ⟨b, heq ▸ hb⟩, fun ⟨b, hb⟩ => ⟨_, b, rfl, hb⟩⟩
  each_rows _ hf := by cases hf
  each_eq _ hf := by cases hf

end Persist
end Fuzznet
