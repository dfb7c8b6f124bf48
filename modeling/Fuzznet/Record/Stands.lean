/-
# What stands below a cut

`record/store.c`, `fzn_record_store_stands`: from a cut, a sequence and a record's id, down
to an earlier act, each record must hash to the id the one above it names.  The walk asks
for each address once, so what a backend answers in it is a function of the address, however
it comes to its answers.

The chain below a cut is a matter of the cut alone where the hash has no collision
(`cut_fixes_history`), whatever backends the walks are taken over.
-/

import Fuzznet.Record.HonestPull

namespace Fuzznet
namespace Record

open Wire

variable {S S' : Type}

/-- The walk of `fzn_record_store_stands` from a sequence down, the record there to hash to
`want`. -/
def standsFrom (ops : StoreOps S) (st : S) (hash : HashOps) (k : StreamKey) (actSeq : UInt64)
    (act : RecId) : ℕ → RecId → Bool
  | 0, _ => false
  | n + 1, want =>
    match recordStoreGet ops st ⟨k, UInt64.ofNat (n + 1)⟩ with
    | .error _ => false
    | .ok rec =>
      match hash.hash rec.bytes with
      | none => false
      | some got =>
        if got ≠ want then false
        else if UInt64.ofNat (n + 1) = actSeq then got = act
        else standsFrom ops st hash k actSeq act n rec.prev

/-- `fzn_record_store_stands`. -/
def recordStoreStands (ops : StoreOps S) (st : S) (hash : HashOps) (k : StreamKey)
    (cutSeq : UInt64) (cut : RecId) (actSeq : UInt64) (act : RecId) : Bool :=
  if actSeq = 0 ∨ actSeq > cutSeq then false
  else standsFrom ops st hash k actSeq act cutSeq.toNat cut

/-- The records held from `last` down to `first`, each hashing to the id the one above it
names, from `top` down to `bottom`. -/
structure Links (ops : StoreOps S) (st : S) (hash : HashOps) (k : StreamKey) (first last : ℕ)
    (top bottom : RecId) (rec : ℕ → RecordView) : Prop where
  held : ∀ i, first ≤ i → i ≤ last → recordStoreGet ops st ⟨k, UInt64.ofNat i⟩ = .ok (rec i)
  top : hash.hash (rec last).bytes = some top
  named : ∀ i, first ≤ i → i < last → hash.hash (rec i).bytes = some (rec (i + 1)).prev
  bottom : hash.hash (rec first).bytes = some bottom

variable {ops : StoreOps S} {st : S} {hash : HashOps} {k : StreamKey} {actSeq : UInt64}
  {act : RecId}

theorem ofNat_eq_iff {n : ℕ} (hn : n < 2 ^ 64) : UInt64.ofNat n = actSeq ↔ n = actSeq.toNat := by
  rw [← UInt64.toNat_inj, UInt64.toNat_ofNat_of_lt' hn]

/-- **One step of the walk**: the record at the sequence is held and hashes to what is wanted;
and it is the act, or the walk goes on with what it names. -/
theorem standsFrom_succ {n : ℕ} {want : RecId} :
    standsFrom ops st hash k actSeq act (n + 1) want = true ↔
      ∃ r, recordStoreGet ops st ⟨k, UInt64.ofNat (n + 1)⟩ = .ok r ∧
        hash.hash r.bytes = some want ∧
        if UInt64.ofNat (n + 1) = actSeq then want = act
        else standsFrom ops st hash k actSeq act n r.prev = true := by
  rw [standsFrom]
  split
  next err hget =>
    refine ⟨fun h => (by cases h), fun ⟨r, hr, _⟩ => ?_⟩
    rw [hget] at hr
    cases hr
  next rec hget =>
    split
    next hnone =>
      refine ⟨fun h => (by cases h), fun ⟨r, hr, hhash, _⟩ => ?_⟩
      rw [hget] at hr
      obtain rfl := Except.ok.inj hr
      rw [hnone] at hhash
      cases hhash
    next got hgot =>
      constructor
      · intro h
        split_ifs at h with hne hat
        · obtain rfl := not_not.1 hne
          exact ⟨rec, hget, hgot, by rw [if_pos hat]; exact of_decide_eq_true h⟩
        · obtain rfl := not_not.1 hne
          exact ⟨rec, hget, hgot, by rwa [if_neg hat]⟩
      · rintro ⟨r, hr, hhash, hrest⟩
        rw [hget] at hr
        obtain rfl := Except.ok.inj hr
        obtain rfl : got = want := Option.some.inj (hgot.symm.trans hhash)
        rw [if_neg (not_not.2 rfl)]
        split_ifs at hrest ⊢ with hat
        · exact decide_eq_true hrest
        · exact hrest

/-- The bytes a store answers with. -/
def answered (ops : StoreOps S) (st : S) : Set Bytes :=
  {bs | ∃ a r, recordStoreGet ops st a = .ok r ∧ r.bytes = bs}

/-- **Two walks from one record** come to the same act. -/
theorem standsFrom_eq {ops' : StoreOps S'} {st' : S'} {act' : RecId}
    (hinj : hash.InjOn (answered ops st ∪ answered ops' st')) {n : ℕ} {want : RecId}
    (h : standsFrom ops st hash k actSeq act n want = true)
    (h' : standsFrom ops' st' hash k actSeq act' n want = true) : act = act' := by
  induction n generalizing want with
  | zero => cases h
  | succ n ih =>
    obtain ⟨r, hr, hhash, hrest⟩ := standsFrom_succ.1 h
    obtain ⟨r', hr', hhash', hrest'⟩ := standsFrom_succ.1 h'
    obtain rfl : r = r' := RecordView.ext
      (hinj r.bytes (.inl ⟨_, r, hr, rfl⟩) r'.bytes (.inr ⟨_, r', hr', rfl⟩) want hhash hhash')
    split_ifs at hrest hrest' with hat
    · exact hrest.symm.trans hrest'
    · exact ih hrest hrest'

/-- **A walk that answers has found the chain**, and finds the chain there is. -/
theorem standsFrom_iff {n : ℕ} {want : RecId} (hn : n < 2 ^ 64) (hpos : 1 ≤ actSeq.toNat)
    (hle : actSeq.toNat ≤ n) :
    standsFrom ops st hash k actSeq act n want = true ↔
      ∃ rec, Links ops st hash k actSeq.toNat n want act rec := by
  induction n generalizing want with
  | zero => omega
  | succ n ih =>
    rw [standsFrom_succ]
    by_cases hat : n + 1 = actSeq.toNat
    · have hseq : UInt64.ofNat (n + 1) = actSeq := (ofNat_eq_iff hn).2 hat
      simp only [if_pos hseq]
      rw [← hat]
      constructor
      · rintro ⟨r, hr, hhash, rfl⟩
        refine ⟨fun _ => r, fun i hi hi' => ?_, hhash, fun i hi hi' => ?_, hhash⟩
        · rw [Nat.le_antisymm hi' hi]
          exact hr
        · omega
      · rintro ⟨rec, hheld, htop, -, hbottom⟩
        exact ⟨rec (n + 1), hheld (n + 1) le_rfl le_rfl, htop,
          Option.some.inj (htop.symm.trans hbottom)⟩
    · simp only [if_neg (mt (ofNat_eq_iff hn).1 hat)]
      have hle' : actSeq.toNat ≤ n := by omega
      constructor
      · rintro ⟨r, hr, hhash, hrest⟩
        obtain ⟨rec, hheld, htop, hnamed, hbottom⟩ := (ih (by omega) hle').1 hrest
        refine ⟨Function.update rec (n + 1) r, fun i hi hi' => ?_, ?_, fun i hi hi' => ?_, ?_⟩
        · rcases Nat.lt_or_eq_of_le hi' with hlt | rfl
          · rw [Function.update_of_ne (by omega)]
            exact hheld i hi (by omega)
          · rwa [Function.update_self]
        · rwa [Function.update_self]
        · rw [Function.update_of_ne (by omega)]
          rcases Nat.lt_or_eq_of_le (Nat.le_of_lt_succ hi') with hlt | rfl
          · rw [Function.update_of_ne (by omega)]
            exact hnamed i hi hlt
          · rwa [Function.update_self]
        · rwa [Function.update_of_ne (by omega)]
      · rintro ⟨rec, hheld, htop, hnamed, hbottom⟩
        refine ⟨rec (n + 1), hheld (n + 1) hle le_rfl, htop, (ih (by omega) hle').2 ⟨rec, ?_⟩⟩
        exact ⟨fun i hi hi' => hheld i hi (by omega), hnamed n hle' (Nat.lt_succ_self n),
          fun i hi hi' => hnamed i hi (by omega), hbottom⟩

/-- **A cut fixes the history below it.**  Where no two records of two stores share a hash, a
walk over the one and a walk over the other from the same cut come to the same act; and over one
store the walk answers exactly where the records are held from the cut down to the act, each
hashing to the id the one above it names. -/
theorem cut_fixes_history (ops : StoreOps S) (st : S) (ops' : StoreOps S') (st' : S')
    (hash : HashOps) (hinj : hash.InjOn (answered ops st ∪ answered ops' st')) (k : StreamKey)
    (cutSeq : UInt64) (cut : RecId) (actSeq : UInt64) :
    (∀ act act', recordStoreStands ops st hash k cutSeq cut actSeq act = true →
      recordStoreStands ops' st' hash k cutSeq cut actSeq act' = true → act = act') ∧
    ∀ act, recordStoreStands ops st hash k cutSeq cut actSeq act = true ↔
      1 ≤ actSeq.toNat ∧ actSeq ≤ cutSeq ∧
        ∃ rec, Links ops st hash k actSeq.toNat cutSeq.toNat cut act rec := by
  refine ⟨fun act act' h h' => ?_, fun act => ?_⟩
  · unfold recordStoreStands at h h'
    split_ifs at h h'
    exact standsFrom_eq hinj h h'
  · unfold recordStoreStands
    have hzero : actSeq = 0 ↔ actSeq.toNat = 0 := by
      rw [← UInt64.toNat_inj]
      rfl
    by_cases hbad : actSeq = 0 ∨ actSeq > cutSeq
    · rw [if_pos hbad]
      refine ⟨fun h => (by cases h), fun ⟨hpos, hle, _⟩ => ?_⟩
      rcases hbad with hbad | hbad
      · rw [hzero.1 hbad] at hpos
        omega
      · exact absurd hbad (UInt64.not_lt.2 hle)
    · rw [if_neg hbad]
      have hpos : 1 ≤ actSeq.toNat := Nat.pos_of_ne_zero fun h => hbad (.inl (hzero.2 h))
      have hle : actSeq ≤ cutSeq := UInt64.not_lt.1 fun h => hbad (.inr h)
      rw [standsFrom_iff cutSeq.toNat_lt hpos (UInt64.le_iff_toNat_le.1 hle)]
      exact ⟨fun h => ⟨hpos, hle, h⟩, fun h => h.2.2⟩

/-- A store of the first `count` records of a stream. -/
def heldTo (count : ℕ) : StoreAddr → Option Bytes := fun a =>
  if a.key = ⟨7, 3⟩ ∧ a.seq ≠ 0 ∧ a.seq.toNat ≤ count then some (linked (a.seq.toNat - 1)) else none

/-- A store of these answers with their bytes alone. -/
theorem answered_heldTo {count : ℕ} (hcount : count ≤ 3) {bs : Bytes}
    (h : bs ∈ answered mapOps (heldTo count)) : ∃ i : Fin 3, bs = linked i := by
  obtain ⟨a, r, hget, rfl⟩ := h
  unfold recordStoreGet at hget
  split at hget
  next => cases hget
  next hseq =>
    split at hget
    next => cases hget
    next bs hheld =>
      split at hget
      next => cases hget
      next q hopen =>
        split at hget
        next => cases hget
        next =>
          obtain rfl := Except.ok.inj hget
          replace hheld : (heldTo count a).elim (Except.error StoreErr.absent) Except.ok =
              .ok bs := hheld
          unfold heldTo at hheld
          split at hheld
          next hin =>
            refine ⟨⟨a.seq.toNat - 1, by have := hin.2.2; omega⟩, ?_⟩
            rw [recordOpen_bytes hopen]
            exact (Except.ok.inj hheld).symm
          next => cases hheld

/-- No two of the first three hash alike. -/
theorem heldTo_injOn {count count' : ℕ} (hcount : count ≤ 3) (hcount' : count' ≤ 3) :
    tailHash.InjOn (answered mapOps (heldTo count) ∪ answered mapOps (heldTo count')) := by
  have hanswered : ∀ {bs}, bs ∈ answered mapOps (heldTo count) ∪ answered mapOps (heldTo count') →
      ∃ i : Fin 3, bs = linked i := fun hbs =>
    hbs.elim (answered_heldTo hcount) (answered_heldTo hcount')
  have hinj : ∀ i j : Fin 3, tailHash.hash (linked i) = tailHash.hash (linked j) → i = j := by
    decide +kernel
  intro x hx y hy h hhash hhash'
  obtain ⟨i, rfl⟩ := hanswered hx
  obtain ⟨j, rfl⟩ := hanswered hy
  rw [hinj i j (hhash.trans hhash'.symm)]

/-- Two records below a cut in one store and three in the other: from the second record both come
to the first and to nothing else, and from the third the links of the longer one do. -/
theorem cut_fixes_history_three :
    (∀ act, recordStoreStands mapOps (heldTo 2) tailHash ⟨7, 3⟩ 2 10 1 act = true ↔ act = 9) ∧
      (∀ act, recordStoreStands mapOps (heldTo 3) tailHash ⟨7, 3⟩ 2 10 1 act = true ↔ act = 9) ∧
      ∃ rec, Links mapOps (heldTo 3) tailHash ⟨7, 3⟩ 1 3 11 9 rec := by
  have hinj := @heldTo_injOn 2 3 (by decide) (by decide)
  have htwo : recordStoreStands mapOps (heldTo 2) tailHash ⟨7, 3⟩ 2 10 1 9 = true := by
    decide +kernel
  have hthree : recordStoreStands mapOps (heldTo 3) tailHash ⟨7, 3⟩ 2 10 1 9 = true := by
    decide +kernel
  have hcut := cut_fixes_history mapOps (heldTo 2) mapOps (heldTo 3) tailHash hinj ⟨7, 3⟩ 2 10 1
  refine ⟨fun act => ⟨fun hact => hcut.1 act 9 hact hthree, fun h => h ▸ htwo⟩,
    fun act => ⟨fun hact => (hcut.1 9 act htwo hact).symm, fun h => h ▸ hthree⟩, ?_⟩
  have hfrom := cut_fixes_history mapOps (heldTo 3) mapOps (heldTo 3) tailHash
    (heldTo_injOn (by decide) (by decide)) ⟨7, 3⟩ 3 11 1
  exact ((hfrom.2 9).1 (by decide +kernel)).2.2

end Record
end Fuzznet
