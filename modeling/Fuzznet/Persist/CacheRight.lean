/-
# The cache says what the store would say

`persist/cache.h`: it can be slower, and not wrong.  A row here is the store's own, and a
cache that is whole has every row of its slot (`Right`).  What could break it is an
operation at one subject: the store's row there may have changed, so for a moment the cache
is right but at that subject (`RightBut`), and taking the row out, or putting the store's
own in, makes it right again.  A fill reads rows in one at a time and calls the cache whole
at the end alone, when the walk and every row of it were read (`filledAll_spec`).
-/

import Fuzznet.Persist.Cache

namespace Fuzznet
namespace Persist

open Wire (Bytes Bytes32)
open Lib (Chains)

section Right

variable {σ : Type} (o : Store σ)

/-- What the cache says at every subject but `k` is the store's. -/
structure RightBut (c : Cache σ) (k : Bytes32) : Prop where
  counted : c.Counted
  held : ∀ r ∈ c.table, r.subject ≠ k → o.rows c.base c.slot (some r.subject) = some r.bytes
  whole : c.whole = true → c.buckets.isSome = true ∧ ∀ k' b, k' ≠ k →
    o.rows c.base c.slot (some k') = some b → ∃ r ∈ c.table, r.subject = k'

/-- What the cache says is the store's: its rows, and what is not there if it is whole. -/
structure Right (c : Cache σ) : Prop where
  counted : c.Counted
  held : ∀ r ∈ c.table, o.rows c.base c.slot (some r.subject) = some r.bytes
  whole : c.whole = true → c.buckets.isSome = true ∧ ∀ k b,
    o.rows c.base c.slot (some k) = some b → ∃ r ∈ c.table, r.subject = k

/-- A step that only reads: the rows of the store, the slot and the budget stay. -/
structure Quiet (c c' : Cache σ) : Prop where
  rows : o.rows c'.base = o.rows c.base
  slot : c'.slot = c.slot
  budget : c'.budget = c.budget

variable {o} {c c' : Cache σ} {k : Bytes32}

theorem Quiet.refl (c : Cache σ) : Quiet o c c := ⟨rfl, rfl, rfl⟩

theorem Quiet.trans {c'' : Cache σ} (h : Quiet o c c') (h' : Quiet o c' c'') : Quiet o c c'' :=
  ⟨h'.rows.trans h.rows, h'.slot.trans h.slot, h'.budget.trans h.budget⟩

theorem Cache.Frame.quiet (h : c.Frame c') : Quiet o c c' :=
  ⟨by rw [h.base], h.slot, h.budget⟩

theorem right_init (s : σ) (slot : PersistSlot) (budget : ℕ) (allocs : List Bool) :
    Right o { cacheInit s slot allocs with budget := budget } :=
  ⟨⟨List.nodup_nil, rfl, rfl, Nat.zero_le _⟩, nofun, nofun⟩

/-! ## One subject in doubt -/

variable {s : σ} {slot : PersistSlot}

/-- A store that changed at one place at the most leaves the cache right but there. -/
theorem Right.but (h : Right o c) {k : Bytes32} (hs : ∀ slot' k', (slot', k') ≠ (c.slot, some k) →
      o.rows s slot' k' = o.rows c.base slot' k') : RightBut o { c with base := s } k := by
  have hrow : ∀ k' ≠ k, o.rows s c.slot (some k') = o.rows c.base c.slot (some k') :=
    fun k' hne => hs _ _ fun heq => hne (Option.some.inj (Prod.mk.inj heq).2)
  constructor
  · exact ⟨h.counted.distinct, h.counted.rows_eq, h.counted.bytes_eq, h.counted.fits⟩
  · intro r hr hne
    rw [hrow r.subject hne]
    exact h.held r hr
  · intro hw
    refine ⟨(h.whole hw).1, fun k' b hne hb => ?_⟩
    rw [hrow k' hne] at hb
    exact (h.whole hw).2 k' b hb

/-- A store that did not change in the slot leaves the cache right. -/
theorem Right.withBase (h : Right o c)
    (hs : ∀ k, o.rows s c.slot (some k) = o.rows c.base c.slot (some k)) :
    Right o { c with base := s } := by
  constructor
  · exact ⟨h.counted.distinct, h.counted.rows_eq, h.counted.bytes_eq, h.counted.fits⟩
  · intro r hr
    rw [hs r.subject]
    exact h.held r hr
  · intro hw
    refine ⟨(h.whole hw).1, fun k b hb => ?_⟩
    rw [hs k] at hb
    exact (h.whole hw).2 k b hb

theorem RightBut.forget (h : RightBut o c k) (hnone : o.rows c.base c.slot (some k) = none) :
    Right o (c.forget k) := by
  have hf := c.forget_frame k
  constructor
  · exact h.counted.forget k
  · intro r hr
    obtain ⟨hmem, hne⟩ := (Cache.mem_forget h.counted).1 hr
    rw [hf.base, hf.slot]
    exact h.held r hmem hne
  · rw [Cache.forget_whole]
    intro hw
    obtain ⟨hsome, hall⟩ := h.whole hw
    refine ⟨by rwa [Cache.forget_isSome], fun k' b hb => ?_⟩
    rw [hf.base, hf.slot] at hb
    have hne : k' ≠ k := by
      rintro rfl
      rw [hnone] at hb
      cases hb
    obtain ⟨r, hr, rfl⟩ := hall k' b hne hb
    exact ⟨r, (Cache.mem_forget h.counted).2 ⟨hr, hne⟩, rfl⟩

/-- The row in doubt taken out, and the cache no longer whole. -/
theorem RightBut.doubt (h : RightBut o c k) : Right o { c.forget k with whole := false } := by
  have hf := c.forget_frame k
  have hc := h.counted.forget k
  constructor
  · exact ⟨hc.distinct, hc.rows_eq, hc.bytes_eq, hc.fits⟩
  · intro r hr
    obtain ⟨hmem, hne⟩ := (Cache.mem_forget h.counted).1 hr
    change o.rows (c.forget k).base (c.forget k).slot _ = _
    rw [hf.base, hf.slot]
    exact h.held r hmem hne
  · exact fun hw => by cases hw

/-- **The store's own row kept, or not kept.** -/
theorem RightBut.keep (h : RightBut o c k) {bytes : Bytes}
    (hrow : o.rows c.base c.slot (some k) = some bytes) : Right o (c.keep k bytes).2 := by
  have hf := c.keep_frame k bytes
  cases hsome : c.buckets.isSome with
  | false =>
    have hnone : c.buckets = none := Option.not_isSome_iff_eq_none.1 (by rw [hsome]; nofun)
    rw [Cache.keep_of_none hnone]
    refine ⟨h.counted, fun r hr => ?_, fun hw => ?_⟩
    · rw [Cache.table, hnone] at hr
      exact absurd hr List.not_mem_nil
    · rw [(h.whole hw).1] at hsome
      cases hsome
  | true =>
    obtain ⟨hsome', hcases⟩ := Cache.keep_cases h.counted hsome k bytes
    refine ⟨h.counted.keep k bytes, fun r hr => ?_, fun hw => ⟨hsome', fun k' b hb => ?_⟩⟩
    · rw [hf.base, hf.slot]
      have hmem : r = ⟨k, bytes⟩ ∨ r ∈ c.table ∧ r.subject ≠ k := by
        rcases hcases with ⟨-, -, htable⟩ | ⟨-, -, htable⟩
        · exact (htable r).1 hr
        · exact Or.inr ((htable r).1 hr)
      rcases hmem with rfl | ⟨hmem, hne⟩
      · exact hrow
      · exact h.held r hmem hne
    · rw [hf.base, hf.slot] at hb
      rcases hcases with ⟨-, hsame, htable⟩ | ⟨-, hfalse, -⟩
      · rcases eq_or_ne k' k with rfl | hne
        · exact ⟨⟨k', bytes⟩, (htable _).2 (Or.inl rfl), rfl⟩
        · obtain ⟨r, hr, rfl⟩ := (h.whole (hsame ▸ hw)).2 k' b hne hb
          exact ⟨r, (htable r).2 (Or.inr ⟨hr, hne⟩), rfl⟩
      · rw [hfalse] at hw
        cases hw

/-! ## Saves and removals -/

/-- The store changed at the row of `slot` and `k` at the most. -/
def ChangedAt (o : Store σ) (c : Cache σ) (s : σ) (slot : PersistSlot) (k : Option Bytes32) :
    Prop :=
  ∀ slot' k', (slot', k') ≠ (slot, k) → o.rows s slot' k' = o.rows c.base slot' k'

/-- A change outside the slot, or of no subject, is none of the cache's. -/
theorem Right.elsewhere (h : Right o c) {k : Option Bytes32} (hs : ChangedAt o c s slot k)
    (hout : slot = c.slot → k = none) : Right o { c with base := s } := by
  refine h.withBase fun k' => hs _ _ fun heq => ?_
  obtain ⟨hslot, hk⟩ := Prod.mk.inj heq
  have hnone := hout hslot.symm
  rw [← hk] at hnone
  cases hnone

theorem Right.doubt (h : Right o c) {k : Option Bytes32} (hs : ChangedAt o c s slot k) :
    Right o ({ c with base := s }.doubt slot k) := by
  unfold Cache.doubt
  cases k with
  | none => exact h.elsewhere hs fun _ => rfl
  | some k =>
    dsimp only
    split
    next hslot =>
      rw [hslot] at hs
      exact (h.but hs).doubt
    next hslot => exact h.elsewhere hs fun heq => absurd heq hslot

theorem RightBut.counted_change (h : RightBut o c k) :
    RightBut o { c with changes := c.changes + 1 } k :=
  ⟨⟨h.counted.distinct, h.counted.rows_eq, h.counted.bytes_eq, h.counted.fits⟩, h.held, h.whole⟩

theorem Right.counted_change (h : Right o c) : Right o { c with changes := c.changes + 1 } :=
  ⟨⟨h.counted.distinct, h.counted.rows_eq, h.counted.bytes_eq, h.counted.fits⟩, h.held, h.whole⟩

theorem Right.saved (h : Right o c) {k : Option Bytes32} {bytes : Bytes}
    (hs : ChangedAt o c s slot k) (hrow : o.rows s slot k = some bytes) :
    Right o ({ c with base := s }.saved slot k bytes) := by
  unfold Cache.saved
  split
  next hslot =>
    rw [hslot] at hs hrow
    cases k with
    | none => exact (h.elsewhere hs fun _ => rfl).counted_change
    | some k => exact (h.but hs).counted_change.keep hrow
  next hslot => exact h.elsewhere hs fun heq => absurd heq hslot

theorem Right.removed (h : Right o c) {k : Option Bytes32} (hs : ChangedAt o c s slot k)
    (hrow : o.rows s slot k = none) : Right o ({ c with base := s }.removed slot k) := by
  unfold Cache.removed
  split
  next hslot =>
    rw [hslot] at hs hrow
    cases k with
    | none => exact (h.elsewhere hs fun _ => rfl).counted_change
    | some k => exact (h.but hs).counted_change.forget hrow
  next hslot => exact h.elsewhere hs fun heq => absurd heq hslot

/-- What a save does to the cache and to the store. -/
theorem Right.save (h : Right o c) (slot : PersistSlot) (k : Option Bytes32) (bytes : Bytes) :
    Right o (cacheSave o.toPersistOps c slot k bytes).2 := by
  have hs : ChangedAt o c (o.save c.base slot k bytes).2 slot k :=
    fun slot' k' => o.save_other c.base slot k bytes slot' k'
  have hdone := @Store.save_done σ o c.base slot k bytes
  unfold cacheSave
  cases hsave : o.save c.base slot k bytes with
  | mk answered s =>
    rw [hsave] at hs hdone
    cases answered with
    | false => exact h.doubt hs
    | true => exact h.saved hs (hdone rfl)

theorem Right.remove (h : Right o c) (slot : PersistSlot) (k : Option Bytes32) :
    Right o (cacheRemove o.toPersistOps c slot k).2 := by
  unfold cacheRemove
  split
  next => exact h.doubt (s := c.base) fun _ _ _ => rfl
  next f hf =>
    have hs : ChangedAt o c (f c.base slot k).2 slot k :=
      fun slot' k' => o.remove_other f hf c.base slot k slot' k'
    have hdone := @Store.remove_done σ o f hf c.base slot k
    cases hremove : f c.base slot k with
    | mk answered s =>
      rw [hremove] at hs hdone
      cases answered with
      | false => exact h.doubt hs
      | true => exact h.removed hs (hdone rfl)

/-! ## Loads, listings and walks -/

theorem Right.baseLoad (h : Right o c) (slot : PersistSlot) (k : Option Bytes32) (cap : ℕ) :
    Right o (c.baseLoad o.toPersistOps slot k cap).2 :=
  h.withBase fun k' => by rw [o.load_rows]

theorem quiet_baseLoad (c : Cache σ) (slot : PersistSlot) (k : Option Bytes32) (cap : ℕ) :
    Quiet o c (c.baseLoad o.toPersistOps slot k cap).2 :=
  ⟨o.load_rows _ _ _ _, rfl, rfl⟩

theorem Right.baseList (h : Right o c) (slot : PersistSlot) (max : ℕ) :
    Right o (c.baseList o.toPersistOps slot max).2 :=
  h.withBase fun k => by rw [o.listing_rows]

theorem Right.baseWalk (h : Right o c) (slot : PersistSlot) :
    Right o (c.baseWalk o.toPersistOps slot).2 :=
  h.withBase fun k => by rw [o.walk_rows]

theorem Right.load (h : Right o c) (slot : PersistSlot) (k : Option Bytes32) (cap : ℕ) :
    Right o (cacheLoad o.toPersistOps c slot k cap).2 ∧
      Quiet o c (cacheLoad o.toPersistOps c slot k cap).2 := by
  have hmiss : Right o { c with misses := c.misses + 1 } :=
    ⟨⟨h.counted.distinct, h.counted.rows_eq, h.counted.bytes_eq, h.counted.fits⟩, h.held,
      h.whole⟩
  cases k with
  | none => exact ⟨h.baseLoad slot none cap, quiet_baseLoad c slot none cap⟩
  | some k =>
    unfold cacheLoad
    dsimp only
    split
    · exact ⟨h.baseLoad slot (some k) cap, quiet_baseLoad c slot (some k) cap⟩
    · split
      · exact ⟨h, Quiet.refl c⟩
      · split
        · exact ⟨h, Quiet.refl c⟩
        · exact ⟨hmiss.baseLoad slot (some k) cap,
            o.load_rows _ _ _ _, rfl, rfl⟩

/-- **A load answers the store's row, or nothing where the store's own load answers
nothing.** -/
theorem Right.load_eq (h : Right o c) (slot : PersistSlot) (k : Option Bytes32) (cap : ℕ) :
    (cacheLoad o.toPersistOps c slot k cap).1 = fitting cap (o.rows c.base slot k) ∨
      (cacheLoad o.toPersistOps c slot k cap).1 = none ∧
        (o.load c.base slot k cap).1 = none := by
  have hasked : (o.load c.base slot k cap).1 = fitting cap (o.rows c.base slot k) ∨
      (o.load c.base slot k cap).1 = none ∧ (o.load c.base slot k cap).1 = none :=
    (o.load_fitting c.base slot k cap).imp id fun hnone => ⟨hnone, hnone⟩
  cases k with
  | none => exact hasked
  | some k =>
    unfold cacheLoad
    dsimp only
    split
    next => exact hasked
    next hslot =>
      have hslot : slot = c.slot := not_not.1 hslot
      split
      next r hr =>
        obtain ⟨hmem, rfl⟩ := Cache.mem_of_find hr
        left
        rw [hslot, h.held r hmem, fitting_some]
      next hmiss =>
        split
        next hw =>
          left
          cases hrow : o.rows c.base slot (some k) with
          | none => rfl
          | some b =>
            rw [hslot] at hrow
            obtain ⟨r, hr, hk⟩ := (h.whole hw).2 k b hrow
            exact absurd hk (Cache.not_mem_of_find hmiss hr)
        next => exact hasked

/-! ## A fill -/

/-- What a fill keeps from row to row: the cache is right, has its buckets and is not called
whole. -/
structure Filling (o : Store σ) (c c' : Cache σ) : Prop where
  right : Right o c'
  quiet : Quiet o c c'
  buckets : c'.buckets.isSome = true
  whole : c'.whole = false

/-- The row of `k` is here. -/
def Has (c : Cache σ) (k : Bytes32) : Prop := ∃ r ∈ c.table, r.subject = k

/-- A row read in is here, or the fill is told of it; no other subject is let go. -/
theorem filled_spec (h : Right o c) (hb : c.buckets.isSome = true) (hw : c.whole = false)
    (k : Bytes32) : Filling o c (c.filled o.toPersistOps k).2 ∧
      ((c.filled o.toPersistOps k).1 = true →
        ∀ k', k' = k ∨ Has c k' → Has (c.filled o.toPersistOps k).2 k') := by
  have hasked := h.baseLoad c.slot (some k) cacheRowMax
  have hquiet := quiet_baseLoad (o := o) c c.slot (some k) cacheRowMax
  unfold Cache.filled
  unfold Cache.baseLoad at hasked hquiet ⊢
  cases hl : (o.load c.base c.slot (some k) cacheRowMax).1 with
  | none => exact ⟨⟨hasked, hquiet, hb, hw⟩, nofun⟩
  | some bytes =>
    dsimp only at hasked hquiet ⊢
    generalize (o.load c.base c.slot (some k) cacheRowMax).2 = s at hasked hquiet
    have hrow : o.rows s c.slot (some k) = some bytes := by
      rw [show o.rows s = o.rows c.base from hquiet.rows]
      exact (o.load_eq _ _ _ _ _ hl).1
    have hbut : RightBut o { c with base := s } k :=
      ⟨hasked.counted, fun r hr _ => hasked.held r hr,
        fun hw' => by rw [show c.whole = true from hw'] at hw; cases hw⟩
    obtain ⟨hsome, hcases⟩ := Cache.keep_cases hasked.counted hb k bytes
    refine ⟨⟨hbut.keep hrow, hquiet.trans (Cache.keep_frame _ k bytes).quiet, hsome, ?_⟩,
      fun ht k' hk' => ?_⟩
    · rcases hcases with ⟨-, hsame, -⟩ | ⟨-, hfalse, -⟩
      · exact hsame.trans hw
      · exact hfalse
    · rcases hcases with ⟨-, -, htable⟩ | ⟨hf, -, -⟩
      · rcases eq_or_ne k' k with rfl | hne
        · exact ⟨_, (htable _).2 (Or.inl rfl), rfl⟩
        · obtain ⟨r, hr, rfl⟩ := hk'.resolve_left hne
          exact ⟨r, (htable r).2 (Or.inr ⟨hr, hne⟩), rfl⟩
      · rw [hf] at ht
        cases ht

/-- **Where every row read in is here, so is every subject of the walk.** -/
theorem filledAll_spec (ks : List Bytes32) (h : Right o c) (hb : c.buckets.isSome = true)
    (hw : c.whole = false) : Filling o c (c.filledAll o.toPersistOps ks).2 ∧
      ((c.filledAll o.toPersistOps ks).1 = true →
        ∀ k, k ∈ ks ∨ Has c k → Has (c.filledAll o.toPersistOps ks).2 k) := by
  induction ks generalizing c with
  | nil =>
    refine ⟨⟨h, Quiet.refl c, hb, hw⟩, fun _ k hk => ?_⟩
    exact hk.resolve_left List.not_mem_nil
  | cons k ks ih =>
    obtain ⟨hone, hhas⟩ := filled_spec h hb hw k
    obtain ⟨hrest, hall⟩ := ih hone.right hone.buckets hone.whole
    unfold Cache.filledAll
    refine ⟨⟨hrest.right, hone.quiet.trans hrest.quiet, hrest.buckets, hrest.whole⟩,
      fun hok k' hk' => ?_⟩
    obtain ⟨hok₁, hok₂⟩ := Bool.and_eq_true_iff.1 hok
    rcases hk' with hmem | hold
    · rcases List.mem_cons.1 hmem with rfl | hmem
      · exact hall hok₂ k' (Or.inr (hhas hok₁ k' (Or.inl rfl)))
      · exact hall hok₂ k' (Or.inl hmem)
    · exact hall hok₂ k' (Or.inr (hhas hok₁ k' (Or.inr hold)))

/-- A fill that says it is done leaves the cache whole, and right either way. -/
theorem fillFrom_spec (h : Right o c) (hb : c.buckets.isSome = true) (hw : c.whole = false) :
    Right o (c.fillFrom o.toPersistOps).2 ∧ Quiet o c (c.fillFrom o.toPersistOps).2 ∧
      ((c.fillFrom o.toPersistOps).1 = true →
        (c.fillFrom o.toPersistOps).2.whole = true) := by
  have hwalked := o.walk_eq c.base c.slot
  have hrows := o.walk_rows c.base c.slot
  unfold Cache.fillFrom Cache.baseWalk
  cases hwalk : o.walk c.base c.slot with
  | mk w s =>
    obtain ⟨ks, ended⟩ := w
    rw [hwalk] at hwalked hrows
    have hright : Right o { c with base := s } := h.withBase fun k => by rw [hrows]
    have hquiet : Quiet o c { c with base := s } := ⟨hrows, rfl, rfl⟩
    obtain ⟨hfill, hall⟩ := filledAll_spec ks hright hb hw
    have hcounted := hfill.right.counted
    dsimp only
    split
    next hok =>
      obtain ⟨hok, hended⟩ := Bool.and_eq_true_iff.1 hok
      refine ⟨⟨⟨hcounted.distinct, hcounted.rows_eq, hcounted.bytes_eq, hcounted.fits⟩,
        hfill.right.held, fun _ => ⟨hfill.buckets, fun k b hrow => ?_⟩⟩,
        hquiet.trans ⟨hfill.quiet.rows, hfill.quiet.slot, hfill.quiet.budget⟩, fun _ => rfl⟩
      refine hall hok k (Or.inl (hwalked.all hended k b ?_))
      rw [← hrows]
      change o.rows (Cache.filledAll _ ks { c with base := s }).2.base
        (Cache.filledAll _ ks { c with base := s }).2.slot _ = _ at hrow
      rwa [hfill.quiet.rows, hfill.quiet.slot] at hrow
    next =>
      exact ⟨⟨⟨hcounted.distinct, hcounted.rows_eq, hcounted.bytes_eq, hcounted.fits⟩,
        hfill.right.held, nofun⟩,
        hquiet.trans ⟨hfill.quiet.rows, hfill.quiet.slot, hfill.quiet.budget⟩, nofun⟩

theorem heldWhole_spec (h : Right o c) :
    Right o (c.heldWhole o.toPersistOps).2 ∧ Quiet o c (c.heldWhole o.toPersistOps).2 ∧
      ((c.heldWhole o.toPersistOps).1 = true →
        (c.heldWhole o.toPersistOps).2.whole = true) := by
  have hcounted := h.counted
  unfold Cache.heldWhole
  split
  next hw => exact ⟨h, Quiet.refl c, fun _ => hw⟩
  next hw =>
    have hw : c.whole = false := Bool.eq_false_iff.2 hw
    split
    · exact ⟨⟨⟨hcounted.distinct, hcounted.rows_eq, hcounted.bytes_eq, hcounted.fits⟩, h.held,
        h.whole⟩, ⟨rfl, rfl, rfl⟩, fun hno => absurd hno Bool.false_ne_true⟩
    · unfold Cache.fill
      split
      next b hb => exact fillFrom_spec h (by rw [hb]; rfl) hw
      next hb =>
        have hnone : c.table = [] := by rw [Cache.table, hb]; rfl
        have hbytes := hcounted.bytes_eq
        have hrows := hcounted.rows_eq
        rw [hnone] at hbytes hrows
        split
        · have htable : ({ c.take.2 with buckets := some Chains.empty } : Cache σ).table = [] := by
            rw [Cache.table_of_some rfl, Chains.rows_empty]
          have hright : Right o { c.take.2 with buckets := some Chains.empty } := by
            refine ⟨⟨?_, ?_, ?_, hcounted.fits⟩, fun r hr => ?_, fun hw' => ?_⟩
            · rw [htable]
              exact List.nodup_nil
            · rw [htable]
              exact hrows
            · rw [htable]
              exact hbytes
            · rw [htable] at hr
              exact absurd hr List.not_mem_nil
            · rw [show c.whole = true from hw'] at hw
              cases hw
          obtain ⟨hr, hq, hwhole⟩ := fillFrom_spec hright rfl hw
          exact ⟨hr, ⟨hq.rows, hq.slot, hq.budget⟩, hwhole⟩
        · exact ⟨⟨⟨hcounted.distinct, hcounted.rows_eq, hcounted.bytes_eq, hcounted.fits⟩, h.held,
            h.whole⟩, ⟨rfl, rfl, rfl⟩, fun hno => absurd hno Bool.false_ne_true⟩

/-! ## What a listing and a walk say -/

/-- A whole cache has the subjects of the slot, each once. -/
theorem Right.lists (h : Right o c) (hw : c.whole = true) :
    Lists (o.rows c.base c.slot) (c.table.map CacheRow.subject) := by
  refine ⟨h.counted.distinct, fun k => ?_⟩
  rw [List.mem_map]
  constructor
  · rintro ⟨r, hr, rfl⟩
    exact ⟨r.bytes, h.held r hr⟩
  · rintro ⟨b, hb⟩
    exact (h.whole hw).2 k b hb

theorem Right.list (h : Right o c) (slot : PersistSlot) (max : ℕ) :
    Right o (cacheList o.toPersistOps c slot max).2 ∧
      Quiet o c (cacheList o.toPersistOps c slot max).2 := by
  obtain ⟨hright, hquiet, -⟩ := heldWhole_spec h
  unfold cacheList
  split
  · exact ⟨h.baseList slot max, o.listing_rows _ _ _, rfl, rfl⟩
  · cases hheld : c.heldWhole o.toPersistOps with
    | mk got c₁ =>
      rw [hheld] at hright hquiet
      cases got with
      | false =>
        exact ⟨hright.baseList slot max,
          hquiet.trans ⟨o.listing_rows _ _ _, rfl, rfl⟩⟩
      | true => exact ⟨hright, hquiet⟩

/-- **A listing is of the store's subjects of the slot, each once.** -/
theorem Right.list_eq (h : Right o c) {max : ℕ} {ks : List Bytes32}
    (hks : (cacheList o.toPersistOps c slot max).1 = some ks) :
    Lists (o.rows c.base slot) ks ∧ ks.length ≤ max := by
  obtain ⟨hright, hquiet, hwhole⟩ := heldWhole_spec h
  unfold cacheList at hks
  split at hks
  next => exact o.listing_eq hks
  next hslot =>
    have hslot : slot = c.slot := not_not.1 hslot
    cases hheld : c.heldWhole o.toPersistOps with
    | mk got c₁ =>
      rw [hheld] at hks hright hquiet hwhole
      cases got with
      | false =>
        rw [← hquiet.rows]
        exact o.listing_eq hks
      | true =>
        dsimp only at hks hright hquiet hwhole
        split at hks
        next => cases hks
        next hmax =>
          have hlists := hright.lists (hwhole rfl)
          rw [hquiet.rows, hquiet.slot, ← hslot] at hlists
          rw [← Option.some.inj hks, List.length_map, ← hright.counted.rows_eq]
          exact ⟨hlists, Nat.not_lt.1 hmax⟩

theorem Right.each (h : Right o c) (slot : PersistSlot) :
    Right o (cacheEach o.toPersistOps c slot).2 ∧
      Quiet o c (cacheEach o.toPersistOps c slot).2 := by
  obtain ⟨hright, hquiet, -⟩ := heldWhole_spec h
  unfold cacheEach
  split
  · exact ⟨h.baseWalk slot, o.walk_rows _ _, rfl, rfl⟩
  · cases hheld : c.heldWhole o.toPersistOps with
    | mk got c₁ =>
      rw [hheld] at hright hquiet
      have hcounted := hright.counted
      cases got with
      | false =>
        exact ⟨hright.baseWalk slot, hquiet.trans ⟨o.walk_rows _ _, rfl, rfl⟩⟩
      | true =>
        exact ⟨⟨⟨hcounted.distinct, hcounted.rows_eq, hcounted.bytes_eq, hcounted.fits⟩,
          hright.held, hright.whole⟩, hquiet.rows, hquiet.slot, hquiet.budget⟩

/-- **A walk hands out the store's subjects of the slot, each once.** -/
theorem Right.each_eq (h : Right o c) (slot : PersistSlot) :
    Walked (o.rows c.base slot) (cacheEach o.toPersistOps c slot).1 := by
  obtain ⟨hright, hquiet, hwhole⟩ := heldWhole_spec h
  unfold cacheEach
  split
  next => exact o.walk_eq c.base slot
  next hslot =>
    have hslot : slot = c.slot := not_not.1 hslot
    cases hheld : c.heldWhole o.toPersistOps with
    | mk got c₁ =>
      rw [hheld] at hright hquiet hwhole
      cases got with
      | false =>
        rw [← hquiet.rows]
        exact o.walk_eq c₁.base slot
      | true =>
        have hlists := hright.lists (hwhole rfl)
        rw [hquiet.rows, hquiet.slot, ← hslot] at hlists
        exact hlists.walked

theorem Right.drop (h : Right o c) : Right o c.drop := by
  unfold Cache.drop
  split
  · exact h
  · exact ⟨⟨List.nodup_nil, rfl, rfl, Nat.zero_le _⟩, nofun, nofun⟩

/-! ## The cache is a store -/

theorem doubt_frame (c : Cache σ) (slot : PersistSlot) (k : Option Bytes32) :
    c.Frame (c.doubt slot k) := by
  unfold Cache.doubt
  cases k with
  | none => exact Cache.Frame.refl c
  | some k =>
    have hf := c.forget_frame k
    dsimp only
    split
    · exact ⟨hf.base, hf.slot, hf.budget⟩
    · exact Cache.Frame.refl c

theorem saved_frame (c : Cache σ) (slot : PersistSlot) (k : Option Bytes32) (bytes : Bytes) :
    c.Frame (c.saved slot k bytes) := by
  unfold Cache.saved
  split
  · cases k with
    | none => exact ⟨rfl, rfl, rfl⟩
    | some k =>
      have hf := Cache.keep_frame { c with changes := c.changes + 1 } k bytes
      exact ⟨hf.base, hf.slot, hf.budget⟩
  · exact Cache.Frame.refl c

theorem removed_frame (c : Cache σ) (slot : PersistSlot) (k : Option Bytes32) :
    c.Frame (c.removed slot k) := by
  unfold Cache.removed
  split
  · cases k with
    | none => exact ⟨rfl, rfl, rfl⟩
    | some k =>
      have hf := Cache.forget_frame { c with changes := c.changes + 1 } k
      exact ⟨hf.base, hf.slot, hf.budget⟩
  · exact Cache.Frame.refl c

/-- A save through the cache is the store's save. -/
theorem cacheSave_eq (o : PersistOps σ) (c : Cache σ) (slot : PersistSlot) (k : Option Bytes32)
    (bytes : Bytes) : (cacheSave o c slot k bytes).1 = (o.save c.base slot k bytes).1 ∧
      Cache.Frame { c with base := (o.save c.base slot k bytes).2 }
        (cacheSave o c slot k bytes).2 := by
  unfold cacheSave
  cases o.save c.base slot k bytes with
  | mk answered s =>
    cases answered with
    | false => exact ⟨rfl, doubt_frame _ slot k⟩
    | true => exact ⟨rfl, saved_frame _ slot k bytes⟩

/-- A removal through the cache is the store's, or is none where the store has none. -/
theorem cacheRemove_eq (o : PersistOps σ) (c : Cache σ) (slot : PersistSlot)
    (k : Option Bytes32) :
    (o.remove = none ∧ (cacheRemove o c slot k).1 = false ∧
      c.Frame (cacheRemove o c slot k).2) ∨
    ∃ f ∈ o.remove, (cacheRemove o c slot k).1 = (f c.base slot k).1 ∧
      Cache.Frame { c with base := (f c.base slot k).2 } (cacheRemove o c slot k).2 := by
  unfold cacheRemove
  split
  next hnone => exact Or.inl ⟨hnone, rfl, doubt_frame c slot k⟩
  next f hf =>
    refine Or.inr ⟨f, hf, ?_⟩
    cases f c.base slot k with
    | mk answered s =>
      cases answered with
      | false => exact ⟨rfl, doubt_frame _ slot k⟩
      | true => exact ⟨rfl, removed_frame _ slot k⟩

variable (o) in
/-- **The cache is a store**: in every state in which it is right, its operations keep every
promise of a store's, of the same rows. -/
def cacheStore : Store { c : Cache σ // Right o c } where
  load c slot k cap := ((cacheLoad o.toPersistOps c.1 slot k cap).1,
    ⟨(cacheLoad o.toPersistOps c.1 slot k cap).2, (c.2.load slot k cap).1⟩)
  save c slot k bytes := ((cacheSave o.toPersistOps c.1 slot k bytes).1,
    ⟨(cacheSave o.toPersistOps c.1 slot k bytes).2, c.2.save slot k bytes⟩)
  list := some fun c slot max => ((cacheList o.toPersistOps c.1 slot max).1,
    ⟨(cacheList o.toPersistOps c.1 slot max).2, (c.2.list slot max).1⟩)
  remove := some fun c slot k => ((cacheRemove o.toPersistOps c.1 slot k).1,
    ⟨(cacheRemove o.toPersistOps c.1 slot k).2, c.2.remove slot k⟩)
  each := some fun c slot => ((cacheEach o.toPersistOps c.1 slot).1,
    ⟨(cacheEach o.toPersistOps c.1 slot).2, (c.2.each slot).1⟩)
  rows c := o.rows c.1.base
  load_rows c slot k cap := (c.2.load slot k cap).2.rows
  load_eq c slot k cap b h := by
    rcases c.2.load_eq slot k cap with heq | ⟨hnone, -⟩
    · rw [heq] at h
      obtain ⟨hrow, hlen⟩ := Option.filter_eq_some_iff.1 h
      exact ⟨hrow, by simpa using hlen⟩
    · rw [hnone] at h
      cases h
  save_other c slot k b slot' k' hne := by
    rw [(cacheSave_eq o.toPersistOps c.1 slot k b).2.base]
    exact o.save_other _ _ _ _ _ _ hne
  save_self c slot k b := by
    rw [(cacheSave_eq o.toPersistOps c.1 slot k b).1,
      (cacheSave_eq o.toPersistOps c.1 slot k b).2.base]
    exact o.save_self _ _ _ _
  remove_other f hf c slot k slot' k' hne := by
    obtain rfl := Option.some.inj hf
    rcases cacheRemove_eq o.toPersistOps c.1 slot k with ⟨-, -, hf⟩ | ⟨g, hg, -, hf⟩
    · rw [hf.base]
    · rw [hf.base]
      exact o.remove_other g hg _ _ _ _ _ hne
  remove_self f hf c slot k := by
    obtain rfl := Option.some.inj hf
    rcases cacheRemove_eq o.toPersistOps c.1 slot k with ⟨-, hno, hf⟩ | ⟨g, hg, hok, hf⟩
    · exact Or.inr ⟨hno, by rw [hf.base]⟩
    · dsimp only
      rw [hok, hf.base]
      exact o.remove_self g hg _ _ _
  list_rows f hf c slot max := by
    obtain rfl := Option.some.inj hf
    exact (c.2.list slot max).2.rows
  list_eq f hf c slot max ks hks := by
    obtain rfl := Option.some.inj hf
    exact c.2.list_eq hks
  each_rows f hf c slot := by
    obtain rfl := Option.some.inj hf
    exact (c.2.each slot).2.rows
  each_eq f hf c slot := by
    obtain rfl := Option.some.inj hf
    exact c.2.each_eq slot

end Right

/-! ## Every run -/

/-- A call of the cache. -/
inductive CacheCall
  | load (slot : PersistSlot) (k : Option Bytes32) (cap : ℕ)
  | save (slot : PersistSlot) (k : Option Bytes32) (bytes : Bytes)
  | remove (slot : PersistSlot) (k : Option Bytes32)
  | list (slot : PersistSlot) (max : ℕ)
  | each (slot : PersistSlot)
  | drop
  deriving DecidableEq, Repr

/-- What a call leaves. -/
def cacheCall {σ : Type} (o : PersistOps σ) (c : Cache σ) : CacheCall → Cache σ
  | .load slot k cap => (cacheLoad o c slot k cap).2
  | .save slot k bytes => (cacheSave o c slot k bytes).2
  | .remove slot k => (cacheRemove o c slot k).2
  | .list slot max => (cacheList o c slot max).2
  | .each slot => (cacheEach o c slot).2
  | .drop => c.drop

/-- A cache of `slot` over a store in state `s`, and what the calls leave of it. -/
def cacheRun {σ : Type} (o : PersistOps σ) (s : σ) (slot : PersistSlot) (budget : ℕ)
    (allocs : List Bool) (calls : List CacheCall) : Cache σ :=
  calls.foldl (cacheCall o) { cacheInit s slot allocs with budget := budget }

section Run

variable {σ : Type} {o : Store σ}

theorem Right.call {c : Cache σ} (h : Right o c) (call : CacheCall) :
    Right o (cacheCall o.toPersistOps c call) := by
  cases call with
  | load slot k cap => exact (h.load slot k cap).1
  | save slot k bytes => exact h.save slot k bytes
  | remove slot k => exact h.remove slot k
  | list slot max => exact (h.list slot max).1
  | each slot => exact (h.each slot).1
  | drop => exact h.drop

/-- No call changes the slot or the budget. -/
theorem call_frame {c : Cache σ} (h : Right o c) (call : CacheCall) :
    (cacheCall o.toPersistOps c call).slot = c.slot ∧
      (cacheCall o.toPersistOps c call).budget = c.budget := by
  cases call with
  | load slot k cap => exact ⟨(h.load slot k cap).2.slot, (h.load slot k cap).2.budget⟩
  | save slot k bytes =>
    have hf := (cacheSave_eq o.toPersistOps c slot k bytes).2
    exact ⟨hf.slot, hf.budget⟩
  | remove slot k =>
    rcases cacheRemove_eq o.toPersistOps c slot k with ⟨-, -, hf⟩ | ⟨g, -, -, hf⟩
    · exact ⟨hf.slot, hf.budget⟩
    · exact ⟨hf.slot, hf.budget⟩
  | list slot max => exact ⟨(h.list slot max).2.slot, (h.list slot max).2.budget⟩
  | each slot => exact ⟨(h.each slot).2.slot, (h.each slot).2.budget⟩
  | drop =>
    unfold cacheCall Cache.drop
    dsimp only
    split <;> exact ⟨rfl, rfl⟩

theorem Right.calls {c : Cache σ} (h : Right o c) (calls : List CacheCall) :
    Right o (calls.foldl (cacheCall o.toPersistOps) c) ∧
      (calls.foldl (cacheCall o.toPersistOps) c).slot = c.slot ∧
      (calls.foldl (cacheCall o.toPersistOps) c).budget = c.budget := by
  induction calls generalizing c with
  | nil => exact ⟨h, rfl, rfl⟩
  | cons call calls ih =>
    obtain ⟨hright, hslot, hbudget⟩ := ih (h.call call)
    obtain ⟨hslot', hbudget'⟩ := call_frame h call
    exact ⟨hright, hslot.trans hslot', hbudget.trans hbudget'⟩

end Run

/-- **The cache may be slower but is never wrong**, whatever the store and the allocator
refuse.  In every state reached a row here is the store's; a whole cache has the subjects of
the slot and no other; a load answers the store's row where it fits, or nothing where the
store's own load answers nothing; a listing, and a walk whatever its `fn`, is of the store's
subjects of the slot, each once, and of all of them where it is answered and not stopped; and
the totals are those of what is held, within the budget. -/
theorem cache_never_wrong {σ : Type} (o : Store σ) (s : σ) (slot : PersistSlot) (budget : ℕ)
    (allocs : List Bool) (calls : List CacheCall) :
    let c := cacheRun o.toPersistOps s slot budget allocs calls
    (∀ r ∈ c.table, o.rows c.base slot (some r.subject) = some r.bytes) ∧
    (c.whole = true → ∀ k, k ∈ c.table.map CacheRow.subject ↔
      ∃ b, o.rows c.base slot (some k) = some b) ∧
    (∀ slot k cap, (cacheLoad o.toPersistOps c slot k cap).1 =
        fitting cap (o.rows c.base slot k) ∨
      (cacheLoad o.toPersistOps c slot k cap).1 = none ∧
        (o.load c.base slot k cap).1 = none) ∧
    (∀ slot max ks, (cacheList o.toPersistOps c slot max).1 = some ks →
      Lists (o.rows c.base slot) ks ∧ ks.length ≤ max) ∧
    (∀ (slot : PersistSlot) (τ : Type) (fn : τ → Bytes32 → Bool × τ) (t : τ),
      ((cacheOps o.toPersistOps).persistEach c slot fn t).1.1.Nodup ∧
      (∀ k ∈ ((cacheOps o.toPersistOps).persistEach c slot fn t).1.1,
        ∃ b, o.rows c.base slot (some k) = some b) ∧
      (((cacheOps o.toPersistOps).persistEach c slot fn t).1.2 = true →
        (heard fn t ((cacheOps o.toPersistOps).walk c slot).1.1).2 = true ∨
          Lists (o.rows c.base slot) ((cacheOps o.toPersistOps).persistEach c slot fn t).1.1)) ∧
    (c.table.map CacheRow.subject).Nodup ∧ c.rows = c.table.length ∧
    c.bytes = (c.table.map fun r => r.bytes.length).sum ∧ c.bytes ≤ budget := by
  have hrun := (right_init (o := o) s slot budget allocs).calls calls
  change let c := cacheRun o.toPersistOps s slot budget allocs calls
    Right o c ∧ c.slot = slot ∧ c.budget = budget at hrun
  generalize cacheRun o.toPersistOps s slot budget allocs calls = c at hrun
  obtain ⟨h, hslot, hbudget⟩ := hrun
  obtain ⟨hdistinct, hrows, hbytes, hfits⟩ := h.counted
  refine ⟨fun r hr => ?_, fun hw k => ?_, h.load_eq, fun slot max ks => h.list_eq,
    fun slot τ fn t => (cacheOps o.toPersistOps).persistEach_eq (h.each_eq slot) fn t,
    hdistinct, hrows, hbytes, ?_⟩
  · rw [← hslot]
    exact h.held r hr
  · rw [← hslot]
    exact (h.lists hw).mem_iff k
  · rwa [← hbudget]

/-- A cache of the settings over a disk that does the first six things asked of it and leaves a
save unanswered. -/
def settingCache : { c : Cache RowDisk // Right diskStore c } :=
  ⟨_, right_init ⟨∅, [.done, .done, .done, .done, .done, .unanswered]⟩ .setting 100 []⟩

/-- Two notes saved, the slot listed, and the first note saved again without an answer. -/
def noteCalls : List CacheCall :=
  [.save .note (some 5) [1], .save .note (some 6) [2, 3], .list .note 8, .save .note (some 5) [4]]

/-- A cache of the notes over it is whole behind the listing, and behind the save in doubt has the
row the disk has, which is the new one, or none. -/
theorem cache_never_wrong_notes :
    let c := cacheRun (cacheStore diskStore).toPersistOps settingCache .note 100 []
    (∀ k, k ∈ (c (noteCalls.take 3)).table.map CacheRow.subject ↔
      ∃ b, (cacheStore diskStore).rows (c (noteCalls.take 3)).base .note (some k) = some b) ∧
      (∀ r ∈ (c noteCalls).table,
        (cacheStore diskStore).rows (c noteCalls).base .note (some r.subject) = some r.bytes) ∧
      (cacheStore diskStore).rows (c noteCalls).base .note (some 5) = some [4] ∧
      (c noteCalls).table.map CacheRow.subject = [6] := by
  intro c
  obtain ⟨-, hwhole, -⟩ :=
    cache_never_wrong (cacheStore diskStore) settingCache .note 100 [] (noteCalls.take 3)
  obtain ⟨hheld, -⟩ := cache_never_wrong (cacheStore diskStore) settingCache .note 100 [] noteCalls
  exact ⟨hwhole (by decide +kernel), hheld, by decide +kernel, by decide +kernel⟩

end Persist
end Fuzznet
