/-
# The chain store

`chain/chain_store.c`: verified chains kept with the bytes they were verified from, one
per root, capability and grantee.  An admission verifies first; then it replaces the
entry of its triple, appends one, or spends the first expired entry of a full store.

What the entries are is an invariant over whole runs (`StoreHolds`): one entry a triple,
and each entry's bytes open to hops that verify, without revocations or manifests, at
every time before the entry's expiry, to just what the entry says.  `AdmitStep` says
what one admission does to the table, and everything else is read off it.
-/

import Fuzznet.Chain.Basic
import Fuzznet.Chain.Verify
import Fuzznet.Lib.Runs
import Mathlib.Data.List.Nodup

namespace Fuzznet
namespace Chain

open Wire

/-- `fzn_chain_entry_t`: what verification concluded, and the bytes it read. -/
structure ChainEntry where
  chain : VerifiedChain
  bytes : Bytes
  deriving DecidableEq, Repr

/-- `fzn_chain_store_t`: the entries in use and the room the caller gave. -/
structure ChainStore where
  entries : List ChainEntry
  capacity : ℕ
  deriving DecidableEq, Repr

/-- `FZN_CHAIN_MAX_LEN`: the header and eight hops. -/
def chainMaxLen : ℕ := 2 + chainMaxHops * hopLen

/-- The triple an entry is kept under. -/
def VerifiedChain.triple (v : VerifiedChain) : Triple := ⟨v.root, v.capability, v.grantee⟩

/-- `fzn_chain_store_sound`. -/
def chainStoreSound (store : ChainStore) : Bool :=
  decide (store.entries.length ≤ store.capacity)

/-- `fzn_chain_store_init` over an array of `capacity` entries. -/
def chainStoreInit (capacity : ℕ) : Except ChainErr ChainStore :=
  if capacity = 0 then .error .malformed else .ok ⟨[], capacity⟩

/-- `find_entry`: the index of the triple's entry. -/
def findChain (store : ChainStore) (t : Triple) : Option ℕ :=
  store.entries.findIdx? fun e => e.chain.triple = t

/-- `find_expired`: the first entry dead at `now`. -/
def findExpired (store : ChainStore) (now : UInt64) : Option ℕ :=
  store.entries.findIdx? fun e => chainExpiredAt e.chain now

/-- `fzn_chain_pack` into a buffer of `room` bytes. -/
def chainPackInto (hops : List Hop) (room : ℕ) : Except ChainErr Bytes :=
  if hops.length = 0 ∨ chainMaxHops < hops.length then .error .malformed
  else if room < 2 + hops.length * hopLen then .error .malformed
  else .ok (chainPack hops)

/-- Where `fzn_chain_store_admit` writes a verified chain: over its triple's entry,
behind the last one, or over the first dead one. -/
def keepChain (store : ChainStore) (e : ChainEntry) (now : UInt64) : ChainErr × ChainStore :=
  match findChain store e.chain.triple with
  | some i => (.ok, { store with entries := store.entries.set i e })
  | none =>
    if store.entries.length ≥ store.capacity then
      match findExpired store now with
      | none => (.storeFull, store)
      | some i => (.ok, { store with entries := store.entries.set i e })
    else (.ok, { store with entries := store.entries ++ [e] })

/-- `fzn_chain_store_admit`. -/
def chainStoreAdmit (store : ChainStore) (hops : List Hop) (root : Key) (capability : CapId)
    (now : UInt64) (sign : SignOps) (s : Option RevocationStore) (m : Option ManifestState) :
    ChainErr × ChainStore :=
  if chainStoreSound store = false then (.malformed, store)
  else match chainVerify hops root capability now sign s m with
    | .error err => (err, store)
    | .ok verified =>
      match chainPackInto hops chainMaxLen with
      | .error err => (err, store)
      | .ok packed => keepChain store ⟨verified, packed⟩ now

/-- `fzn_chain_store_lookup`: the bytes held for the triple, unless dead at `now`. -/
def chainStoreLookup (store : ChainStore) (t : Triple) (now : UInt64) : Option Bytes :=
  if chainStoreSound store = false then none
  else ((findChain store t).bind fun i => store.entries[i]?).bind fun e =>
    if e.bytes.length > chainMaxLen then none
    else if chainExpiredAt e.chain now then none
    else some e.bytes

theorem chainStoreInit_ok {capacity : ℕ} {store : ChainStore}
    (h : chainStoreInit capacity = .ok store) : store = ⟨[], capacity⟩ := by
  unfold chainStoreInit at h
  split at h
  · cases h
  · exact (Except.ok.inj h).symm

/-! ## What one admission does -/

/-- A chain the host holds to, whatever it has revoked: its hops verify with no
revocations and no manifest to the verdict `v`, at every time before `v` expires. -/
def VerifiesAlone (sign : SignOps) (hops : List Hop) (v : VerifiedChain) : Prop :=
  ∀ t, v.expiresAt = noExpiry ∨ t < v.expiresAt →
    chainVerify hops v.root v.capability t sign none none = .ok v

/-- An entry is what its bytes say: they open, and the hops verify to its verdict. -/
def EntryHolds (sign : SignOps) (e : ChainEntry) : Prop :=
  ∃ hops, chainOpen e.bytes = .ok hops ∧ VerifiesAlone sign hops e.chain

variable {store : ChainStore} {hops : List Hop} {root : Key} {capability : CapId} {now : UInt64}
  {sign : SignOps} {s : Option RevocationStore} {m : Option ManifestState} {v : VerifiedChain}

/-- Pass one is no harder without revocations. -/
theorem passOne_unrevoked {revoked : ℕ → Bool} {i : ℕ} {prev : Option Hop} {soonest out : UInt64}
    (h : passOne capability now revoked i prev soonest hops = .ok out) :
    passOne capability now (fun _ => false) i prev soonest hops = .ok out := by
  induction hops generalizing i prev soonest with
  | nil => exact h
  | cons hop hops ih =>
    rw [passOne] at h ⊢
    split_ifs at h with hcap hlink hissued hexpired hrevoked
    rw [if_neg hcap, if_neg hlink, if_neg hissued, if_neg hexpired, if_neg (by simp)]
    exact ih h

/-- **A chain accepted under one pinned root verifies alone until it expires.** -/
theorem verifiesAlone_of_chainVerify (hroots : s.bind RevocationStore.roots = none)
    (h : chainVerify hops root capability now sign s m = .ok v) : VerifiesAlone sign hops v := by
  intro t ht
  obtain ⟨hlen, ⟨hop0, hhead, hpin⟩, hpass, -, hsigned, hv⟩ := chainVerify_ok.1 h
  have hroot : v.root = root := by rw [hv]; rfl
  have hcap : v.capability = capability := by rw [hv]; rfl
  rw [hroot, hcap]
  have hpinned : rootPinned none root hop0 = true := by
    unfold rootPinned at hpin ⊢
    rw [hroots] at hpin
    exact hpin
  have hnow : chainVerify hops root capability now sign none none = .ok v :=
    chainVerify_ok.2 ⟨hlen, ⟨hop0, hhead, hpinned⟩, passOne_unrevoked hpass, rfl, hsigned, hv⟩
  exact chainVerify_ok_at hnow ht

/-- A refusal of pass one names an error. -/
theorem passOne_ne_ok {revoked : ℕ → Bool} {i : ℕ} {prev : Option Hop} {soonest : UInt64} :
    passOne capability now revoked i prev soonest hops ≠ .error .ok := by
  induction hops generalizing i prev soonest with
  | nil => exact fun h => absurd h (by simp [passOne])
  | cons hop hops ih =>
    rw [passOne]
    split_ifs
    all_goals first | exact ih | simp

theorem chainVerify_ne_ok : chainVerify hops root capability now sign s m ≠ .error .ok := by
  have hpass := @passOne_ne_ok hops capability now (coversChain s hops capability) 0 none noExpiry
  unfold chainVerify
  generalize passOne capability now (coversChain s hops capability) 0 none noExpiry hops = r at *
  cases hops.head? with
  | none =>
    split_ifs
    all_goals simp
  | some hop0 =>
    cases r with
    | error err =>
      dsimp only
      split_ifs
      all_goals simp_all
    | ok soonest =>
      dsimp only
      split_ifs
      all_goals simp

/-- What keeping the entry `e` does to the table: it replaces the entry of its triple,
or its triple has none and it takes a dead entry's place or a place of its own. -/
inductive ChainStep (store : ChainStore) (e : ChainEntry) (now : UInt64) : ChainStore → Prop
  | replaced {i : ℕ} {old : ChainEntry} (hold : store.entries[i]? = some old)
      (htriple : old.chain.triple = e.chain.triple) :
      ChainStep store e now { store with entries := store.entries.set i e }
  | spent {i : ℕ} {old : ChainEntry} (hold : store.entries[i]? = some old)
      (hdead : chainExpiredAt old.chain now = true)
      (hnew : ∀ x ∈ store.entries, x.chain.triple ≠ e.chain.triple) :
      ChainStep store e now { store with entries := store.entries.set i e }
  | appended (hnew : ∀ x ∈ store.entries, x.chain.triple ≠ e.chain.triple)
      (hroom : store.entries.length < store.capacity) :
      ChainStep store e now { store with entries := store.entries ++ [e] }

theorem keepChain_cases (store : ChainStore) (e : ChainEntry) (now : UInt64) :
    keepChain store e now = (.storeFull, store) ∨
      ∃ store', keepChain store e now = (.ok, store') ∧ ChainStep store e now store' := by
  unfold keepChain
  cases hfind : findChain store e.chain.triple with
  | some i =>
    obtain ⟨hi, htriple, -⟩ := List.findIdx?_eq_some_iff_getElem.1 hfind
    exact Or.inr ⟨_, rfl, .replaced (List.getElem?_eq_getElem hi) (by simpa using htriple)⟩
  | none =>
    have hnew : ∀ x ∈ store.entries, x.chain.triple ≠ e.chain.triple := by
      simpa using List.findIdx?_eq_none_iff.1 hfind
    dsimp only
    by_cases hfull : store.entries.length ≥ store.capacity
    · rw [if_pos hfull]
      cases hdead : findExpired store now with
      | none => exact Or.inl rfl
      | some i =>
        obtain ⟨hi, hexpired, -⟩ := List.findIdx?_eq_some_iff_getElem.1 hdead
        exact Or.inr ⟨_, rfl, .spent (List.getElem?_eq_getElem hi) hexpired hnew⟩
    · rw [if_neg hfull]
      exact Or.inr ⟨_, rfl, .appended hnew (by omega)⟩

/-- The pack of a verified chain does not refuse. -/
theorem chainPackInto_of_verified (h : chainVerify hops root capability now sign s m = .ok v) :
    hops ≠ [] ∧ hops.length ≤ chainMaxHops ∧
      chainPackInto hops chainMaxLen = .ok (chainPack hops) := by
  obtain ⟨hlen, ⟨hop0, hhead, -⟩, -⟩ := chainVerify_ok.1 h
  have hne : hops ≠ [] := by
    rintro rfl
    exact absurd hhead (by simp)
  have hpos : hops.length ≠ 0 := fun hz => hne (List.length_eq_zero_iff.1 hz)
  have hroom : hops.length * hopLen ≤ chainMaxHops * hopLen := Nat.mul_le_mul_right _ hlen
  refine ⟨hne, hlen, ?_⟩
  unfold chainPackInto chainMaxLen
  rw [if_neg (by omega), if_neg (by omega)]

/-- **What an admission can do:** it refuses and leaves the store, or it keeps the
verified chain with its container. -/
theorem chainStoreAdmit_cases (store : ChainStore) (hops : List Hop) (root : Key)
    (capability : CapId) (now : UInt64) (sign : SignOps) (s : Option RevocationStore)
    (m : Option ManifestState) :
    ((chainStoreAdmit store hops root capability now sign s m).1 ≠ .ok ∧
        (chainStoreAdmit store hops root capability now sign s m).2 = store) ∨
      ∃ v, chainVerify hops root capability now sign s m = .ok v ∧
        (chainStoreAdmit store hops root capability now sign s m).1 = .ok ∧
        ChainStep store ⟨v, chainPack hops⟩ now
          (chainStoreAdmit store hops root capability now sign s m).2 := by
  unfold chainStoreAdmit
  by_cases hsound : chainStoreSound store = false
  · rw [if_pos hsound]
    exact Or.inl ⟨by simp, rfl⟩
  rw [if_neg hsound]
  cases hv : chainVerify hops root capability now sign s m with
  | error err =>
    refine Or.inl ⟨?_, rfl⟩
    rintro rfl
    exact chainVerify_ne_ok hv
  | ok v =>
    obtain ⟨-, -, hpack⟩ := chainPackInto_of_verified hv
    dsimp only
    rw [hpack]
    dsimp only
    rcases keepChain_cases store ⟨v, chainPack hops⟩ now with hfull | ⟨store', hkeep, hstep⟩
    · rw [hfull]
      exact Or.inl ⟨by simp, rfl⟩
    · rw [hkeep]
      exact Or.inr ⟨v, rfl, rfl, hstep⟩

/-! ## Runs -/

/-- What a run of admissions keeps: one entry a triple, and entries that are what their
bytes say. -/
structure StoreHolds (sign : SignOps) (store : ChainStore) : Prop where
  distinct : (store.entries.map fun e => e.chain.triple).Nodup
  holds : ∀ e ∈ store.entries, EntryHolds sign e

variable {store' : ChainStore} {e : ChainEntry}

/-- The triples behind a step: those before, but for a dead one's. -/
theorem ChainStep.distinct (hstep : ChainStep store e now store')
    (h : (store.entries.map fun e => e.chain.triple).Nodup) :
    (store'.entries.map fun e => e.chain.triple).Nodup := by
  cases hstep with
  | @replaced i old hold htriple =>
    show ((store.entries.set i e).map fun e => e.chain.triple).Nodup
    obtain ⟨hi, hget⟩ := List.getElem?_eq_some_iff.1 hold
    have hsame : (store.entries.map fun e => e.chain.triple).set i e.chain.triple =
        store.entries.map fun e => e.chain.triple := by
      rw [← htriple, ← hget]
      have hi' : i < (store.entries.map fun e => e.chain.triple).length := by simpa using hi
      have hmap := List.set_getElem_self hi'
      rwa [List.getElem_map] at hmap
    rw [List.map_set, hsame]
    exact h
  | @spent i old hold hdead hnew =>
    show ((store.entries.set i e).map fun e => e.chain.triple).Nodup
    rw [List.map_set]
    exact h.set (by simpa using hnew)
  | appended hnew hroom =>
    show ((store.entries ++ [e]).map fun e => e.chain.triple).Nodup
    rw [List.map_append]
    refine h.append (List.nodup_singleton _) (List.disjoint_singleton.2 fun hmem => ?_)
    obtain ⟨x, hx, heq⟩ := List.mem_map.1 hmem
    exact hnew x hx heq

/-- Every entry behind a step was held, or is the one kept. -/
theorem ChainStep.mem (hstep : ChainStep store e now store') {x : ChainEntry}
    (hx : x ∈ store'.entries) : x ∈ store.entries ∨ x = e := by
  cases hstep with
  | replaced hold htriple => exact List.mem_or_eq_of_mem_set hx
  | spent hold hdead hnew => exact List.mem_or_eq_of_mem_set hx
  | appended hnew hroom =>
    rcases List.mem_append.1 hx with hx | hx
    · exact Or.inl hx
    · exact Or.inr (List.mem_singleton.1 hx)

/-- **A live entry keeps its place, or another chain for its triple takes it.** -/
theorem ChainStep.live (hstep : ChainStep store e now store') {i : ℕ} {x : ChainEntry}
    (hx : store.entries[i]? = some x) (hlive : chainExpiredAt x.chain now = false) :
    ∃ y, store'.entries[i]? = some y ∧ y.chain.triple = x.chain.triple ∧ (y = x ∨ y = e) := by
  have hset : ∀ j old, store.entries[j]? = some old →
      (j = i → e.chain.triple = x.chain.triple) →
      ∃ y, (store.entries.set j e)[i]? = some y ∧ y.chain.triple = x.chain.triple ∧
        (y = x ∨ y = e) := by
    intro j old hold hsame
    by_cases hji : j = i
    · subst hji
      obtain ⟨hj, -⟩ := List.getElem?_eq_some_iff.1 hold
      exact ⟨e, by simp [hj], hsame rfl, Or.inr rfl⟩
    · exact ⟨x, by rw [List.getElem?_set_ne hji, hx], rfl, Or.inl rfl⟩
  cases hstep with
  | @replaced j old hold htriple =>
    refine hset j old hold fun hji => ?_
    subst hji
    rw [← Option.some.inj (hold.symm.trans hx), htriple]
  | @spent j old hold hdead hnew =>
    refine hset j old hold fun hji => ?_
    subst hji
    rw [Option.some.inj (hold.symm.trans hx), hlive] at hdead
    exact absurd hdead (by simp)
  | appended hnew hroom =>
    obtain ⟨hi, -⟩ := List.getElem?_eq_some_iff.1 hx
    exact ⟨x, by rw [List.getElem?_append_left hi, hx], rfl, Or.inl rfl⟩

/-- **The chain an admission keeps is one its bytes hold to.** -/
theorem entryHolds_of_chainVerify (hroots : s.bind RevocationStore.roots = none)
    (h : chainVerify hops root capability now sign s m = .ok v) :
    EntryHolds sign ⟨v, chainPack hops⟩ := by
  obtain ⟨hne, hlen, -⟩ := chainPackInto_of_verified h
  exact ⟨hops, chainOpen_chainPack hne hlen, verifiesAlone_of_chainVerify hroots h⟩

/-- The arguments of one `fzn_chain_store_admit`, but for the signer. -/
structure ChainOffer where
  hops : List Hop
  root : Key
  capability : CapId
  now : UInt64
  revocations : Option RevocationStore
  manifest : Option ManifestState

/-- The admission of an offer. -/
def ChainOffer.admitTo (o : ChainOffer) (sign : SignOps) (store : ChainStore) :
    ChainErr × ChainStore :=
  chainStoreAdmit store o.hops o.root o.capability o.now sign o.revocations o.manifest

/-- The store behind a run of admissions. -/
def chainStoreRun (sign : SignOps) (store : ChainStore) (offers : List ChainOffer) : ChainStore :=
  offers.foldl (fun store o => (o.admitTo sign store).2) store

theorem StoreHolds.step (h : StoreHolds sign store) (o : ChainOffer)
    (hroots : o.revocations.bind RevocationStore.roots = none) :
    StoreHolds sign (o.admitTo sign store).2 := by
  rcases chainStoreAdmit_cases store o.hops o.root o.capability o.now sign o.revocations
      o.manifest with ⟨-, heq⟩ | ⟨v, hv, -, hstep⟩
  · unfold ChainOffer.admitTo
    rw [heq]
    exact h
  · refine ⟨hstep.distinct h.distinct, fun x hx => ?_⟩
    rcases hstep.mem hx with hx | rfl
    · exact h.holds x hx
    · exact entryHolds_of_chainVerify hroots hv

theorem storeHolds_chainStoreRun (h : StoreHolds sign store) {offers : List ChainOffer}
    (hroots : ∀ o ∈ offers, o.revocations.bind RevocationStore.roots = none) :
    StoreHolds sign (chainStoreRun sign store offers) :=
  Lib.foldl_induction (fun _ o hle hs => hs.step o (hroots o (hle.subset (by simp)))) h

/-- **The chain store's invariant.**  In every run of `fzn_chain_store_admit` from an
initialised store, with one signer and no root set, in every state the run reaches: no
two entries share a triple, and each entry's bytes open to hops that verify by
themselves, at every time before its expiry, to the entry's own verdict.  An admission
that refuses leaves the store; and one at `now` leaves every entry that is alive then
in its place, unless it puts another verified chain for the same triple there. -/
theorem chain_store_invariant {capacity : ℕ} {store : ChainStore}
    (hinit : chainStoreInit capacity = .ok store) (sign : SignOps) (offers : List ChainOffer)
    (hroots : ∀ o ∈ offers, o.revocations.bind RevocationStore.roots = none) :
    (∀ pre, pre <+: offers →
        ((chainStoreRun sign store pre).entries.map fun e => e.chain.triple).Nodup ∧
        ∀ e ∈ (chainStoreRun sign store pre).entries, ∃ hops, chainOpen e.bytes = .ok hops ∧
          ∀ t, e.chain.expiresAt = noExpiry ∨ t < e.chain.expiresAt →
            chainVerify hops e.chain.root e.chain.capability t sign none none = .ok e.chain) ∧
      ∀ pre o, pre ++ [o] <+: offers →
        ((o.admitTo sign (chainStoreRun sign store pre)).1 ≠ .ok →
          (o.admitTo sign (chainStoreRun sign store pre)).2 = chainStoreRun sign store pre) ∧
        ∀ (i : ℕ) (x : ChainEntry), (chainStoreRun sign store pre).entries[i]? = some x →
          chainExpiredAt x.chain o.now = false →
          ∃ y : ChainEntry,
            (o.admitTo sign (chainStoreRun sign store pre)).2.entries[i]? = some y ∧
            y.chain.triple = x.chain.triple ∧
            (y = x ∨ chainVerify o.hops o.root o.capability o.now sign o.revocations o.manifest =
              .ok y.chain) := by
  have h₀ : StoreHolds sign store := by
    rw [chainStoreInit_ok hinit]
    exact ⟨by simp, by simp⟩
  refine ⟨fun pre hle => ?_, fun pre o hle => ?_⟩
  · have hs := storeHolds_chainStoreRun h₀ fun o ho => hroots o (hle.subset ho)
    exact ⟨hs.distinct, hs.holds⟩
  · rcases chainStoreAdmit_cases (chainStoreRun sign store pre) o.hops o.root o.capability o.now
        sign o.revocations o.manifest with ⟨-, heq⟩ | ⟨v, hv, hok, hstep⟩
    · refine ⟨fun _ => heq, fun i x hx _ => ⟨x, ?_, rfl, Or.inl rfl⟩⟩
      unfold ChainOffer.admitTo
      rw [heq, hx]
    · refine ⟨fun hne => absurd hok hne, fun i x hx hlive => ?_⟩
      obtain ⟨y, hy, htriple, hyx | rfl⟩ := hstep.live hx hlive
      · exact ⟨y, hy, htriple, Or.inl hyx⟩
      · exact ⟨_, hy, htriple, Or.inr hv⟩

/-- Two chains to `2` under capability `7`, the second without an expiry. -/
def twoOffers : List ChainOffer :=
  [⟨[⟨1, 2, ⟨7⟩, 0, 9, true, 3⟩], 1, ⟨7⟩, 5, none, none⟩,
    ⟨[⟨1, 2, ⟨7⟩, 0, 0, true, 4⟩], 1, ⟨7⟩, 6, none, none⟩]

/-- The second takes the first's place; both answer OK. -/
theorem chain_store_invariant_twoOffers :
    ((chainStoreRun acceptingSign ⟨[], 1⟩ twoOffers).entries.map fun e => e.chain.expiresAt) =
        [0] ∧
      ((chainStoreRun acceptingSign ⟨[], 1⟩ twoOffers).entries.map fun e => e.chain.triple).Nodup :=
  ⟨by decide, ((@chain_store_invariant 1 ⟨[], 1⟩ rfl acceptingSign twoOffers
    (by simp [twoOffers])).1 twoOffers List.prefix_rfl).1⟩

end Chain
end Fuzznet
