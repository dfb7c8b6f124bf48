/-
# The walks of a process

`fzn_node_apply_chain` of `node/apply.c` over a run of walks.  A walk whose number no grant is
marked with finds a chain exactly where one exists, of the grants it should be of, and takes a
grant that may not be passed on only where none that may leads to a root (`chainWalk_right`);
the number is new in the first 2^32 - 1 walks of a run (`chain_walks`).  The number comes
round: a key found to reach no root is then passed over though it reaches one
(`chain_walks_wrap`).
-/

import Fuzznet.Node.Grants

namespace Fuzznet
namespace Node

open Wire Lib Chain

/-! ## What a walk should find -/

section Right

variable (ap : Apply) (hops : List Hop) (capability : CapId)

/-- A path of grants up from a key to a root. -/
def ChainUp : Key → List Hop → Prop
  | key, [] => ap.isRoot key = true
  | key, hop :: rest => (hop ∈ hops ∧ hop.grantee = key ∧ hop.capability = capability) ∧
      ChainUp hop.grantor rest

/-- A key reaches a root by so many grants at the most. -/
def Reaches (n : ℕ) (key : Key) : Prop :=
  ∃ path, path.length ≤ n ∧ ChainUp ap hops capability key path

/-- A chain as it is given, root first: of grants of the capability that are in the index, each
granted by the grantee of the one before, the first by a root and the last naming the key. -/
structure ChainDown (key : Key) (chain : List Hop) : Prop where
  indexed : ∀ hop ∈ chain, hop ∈ hops ∧ hop.capability = capability
  linked : ∀ front hop next back, chain = front ++ hop :: next :: back → next.grantor = hop.grantee
  first : ∀ hop back, chain = hop :: back → ap.isRoot hop.grantor = true
  last : ∀ front hop, chain = front ++ [hop] → hop.grantee = key
  empty : chain = [] → ap.isRoot key = true

/-- What is said of a walk's answer. -/
structure ChainRight (key : Key) (answer : Option (List Hop)) : Prop where
  found : answer.isSome = true ↔
    ap.isRoot key = true ∨ Reaches ap hops capability (chainMaxHops - 1) key
  chain : ∀ chain ∈ answer, ChainDown ap hops capability key chain
  passable : ∀ front hop back, answer = some (front ++ hop :: back) → hop.delegable = false →
    ∀ grant ∈ hops, grant.grantee = hop.grantee → grant.capability = capability →
      grant.delegable = true →
      ¬ Reaches ap hops capability (chainMaxHops - 1 - (back.length + 1)) grant.grantor

end Right

section Walk

variable {ap : Apply} {hops path : List Hop} {capability : CapId} {key : Key} {walk : UInt32} {hop : Hop}

theorem chainUp_iff_leads :
    ChainUp ap hops capability key path ↔ (walkUp ap hops capability walk).Leads key path := by
  induction path generalizing key with
  | nil => exact Iff.rfl
  | cons hop rest ih => exact and_congr mem_grantsNaming.symm ih

theorem reaches_iff (walk : UInt32) {n : ℕ} :
    Reaches ap hops capability n key ↔ (walkUp ap hops capability walk).paths n key ≠ [] := by
  constructor
  · rintro ⟨path, hlen, hup⟩
    exact DeadEnds.paths_ne_nil (chainUp_iff_leads.1 hup) hlen
  · intro hne
    obtain ⟨path, hpath⟩ := List.exists_mem_of_ne_nil _ hne
    obtain ⟨hleads, hlen⟩ := DeadEnds.leads_of_mem hpath
    exact ⟨path, hlen, chainUp_iff_leads.2 hleads⟩

/-- The grants of a path up are of the index, each granted by the grantee of the next. -/
theorem ChainUp.mem (h : ChainUp ap hops capability key path) (hhop : hop ∈ path) :
    hop ∈ hops ∧ hop.capability = capability := by
  induction path generalizing key with
  | nil => cases hhop
  | cons first rest ih =>
    rcases List.mem_cons.1 hhop with rfl | hhop
    · exact ⟨h.1.1, h.1.2.2⟩
    · exact ih h.2 hhop

theorem ChainUp.behind {front back : List Hop}
    (h : ChainUp ap hops capability key (front ++ hop :: back)) :
    ChainUp ap hops capability hop.grantor back := by
  induction front generalizing key with
  | nil => exact h.2
  | cons first front ih => exact ih h.2

/-- **A path up, turned round, is a chain.** -/
theorem ChainUp.reverse (h : ChainUp ap hops capability key path) :
    ChainDown ap hops capability key path.reverse where
  indexed hop hhop := h.mem (List.mem_reverse.1 hhop)
  linked front hop next back heq := by
    have hpath := congrArg List.reverse heq
    rw [List.reverse_reverse, List.reverse_append, List.reverse_cons, List.reverse_cons,
      List.append_assoc, List.append_assoc, List.singleton_append] at hpath
    rw [hpath] at h
    exact h.behind.1.2.1.symm
  first hop back heq := by
    have hpath := congrArg List.reverse heq
    rw [List.reverse_reverse, List.reverse_cons] at hpath
    rw [hpath] at h
    exact h.behind
  last front hop heq := by
    have hpath := congrArg List.reverse heq
    rw [List.reverse_reverse, List.reverse_append, List.reverse_singleton,
      List.singleton_append] at hpath
    rw [hpath] at h
    exact h.1.2.1
  empty heq := by
    obtain rfl := List.reverse_eq_nil_iff.1 heq
    exact h

/-- Every grant that may be passed on is tried before one that may not. -/
theorem delegable_before {before behind : List Hop}
    (hedges : grantsNaming hops capability key = before ++ hop :: behind)
    (hhop : hop.delegable = false) {grant : Hop} (hgrant : grant ∈ hops)
    (hkey : grant.grantee = key) (hcap : grant.capability = capability)
    (hdelegable : grant.delegable = true) : grant ∈ before := by
  unfold grantsNaming at hedges
  have hmem : grant ∈ (hops.filter fun hop =>
      hop.grantee == key && hop.capability == capability).filter (·.delegable) := by
    rw [List.mem_filter, List.mem_filter, Bool.and_eq_true, beq_iff_eq, beq_iff_eq]
    exact ⟨⟨hgrant, hkey, hcap⟩, hdelegable⟩
  rcases List.append_eq_append_iff.1 hedges with ⟨rest, rfl, -⟩ | ⟨rest, heq, hrest⟩
  · exact List.mem_append_left _ hmem
  · rw [heq, List.mem_append] at hmem
    rcases hmem with hmem | hmem
    · exact hmem
    · cases rest with
      | nil => cases hmem
      | cons first rest =>
        -- the grant taken would be one that may be passed on
        obtain ⟨rfl, -⟩ := List.cons.inj hrest
        have hfirst : hop ∈ (hops.filter fun hop =>
            hop.grantee == key && hop.capability == capability).filter (·.delegable) := by
          rw [heq]
          exact List.mem_append_right _ List.mem_cons_self
        rw [(List.mem_filter.1 hfirst).2] at hhop
        cases hhop

/-- **A walk whose number no grant is marked with is right.** -/
theorem chainWalk_right {w : Walks} (hfresh : w.Fresh) (ap : Apply) (key : Key)
    (capability : CapId) :
    ChainRight ap w.hops capability key (chainWalk ap w key capability).1 := by
  have hanswer : (chainWalk ap w key capability).1 =
      ((walkUp ap w.hops capability (nextWalk w.walks)).paths (chainMaxHops - 1)
        key).head?.map List.reverse :=
    congrArg (Option.map List.reverse)
      (DeadEnds.search_eq (n := chainMaxHops - 1) (a := key) (hfresh.sound ap capability)).1
  rw [hanswer]
  generalize nextWalk w.walks = walk
  have hroot : ap.isRoot key = true → Reaches ap w.hops capability (chainMaxHops - 1) key :=
    fun hroot => ⟨[], Nat.zero_le _, hroot⟩
  refine ⟨?_, fun chain hchain => ?_, fun front hop back heq hhop grant hgrant hkey hcap
    hdelegable hreaches => ?_⟩
  · rw [or_iff_right_of_imp hroot, reaches_iff walk]
    cases (walkUp ap w.hops capability walk).paths (chainMaxHops - 1) key with
    | nil => simp
    | cons path paths => simp
  · obtain ⟨path, hpath, rfl⟩ := Option.map_eq_some_iff.1 hchain
    exact (chainUp_iff_leads.2 (DeadEnds.leads_of_mem (List.mem_of_head? hpath)).1).reverse
  · obtain ⟨path, hpath, hreverse⟩ := Option.map_eq_some_iff.1 heq
    have hup := congrArg List.reverse hreverse
    rw [List.reverse_reverse, List.reverse_append, List.reverse_cons, List.append_assoc,
      List.singleton_append] at hup
    rw [hup] at hpath
    obtain ⟨b, before, behind, hedges, hnil⟩ := DeadEnds.first_passes_over hpath
    have hb : hop.grantee = b :=
      (mem_grantsNaming.1 (hedges ▸ List.mem_append_right _ List.mem_cons_self)).2.1
    have hbefore : grant ∈ before :=
      delegable_before hedges hhop hgrant (hkey.trans hb) hcap hdelegable
    have hnone := hnil grant hbefore
    rw [List.length_reverse] at hnone
    exact (reaches_iff walk).1 hreaches hnone

end Walk

/-! ## Runs -/

section Run

variable {w : Walks}

/-- So many walks from a root, that leave no mark. -/
theorem run_ask_root {ap : Apply} {key : Key} (hroot : ap.isRoot key = true) (capability : CapId)
    (n : ℕ) (hlt : w.walks.toNat + n < 2 ^ 32) :
    (w.run (List.replicate n (.ask ap key capability))).grants = w.grants ∧
      (w.run (List.replicate n (.ask ap key capability))).walks.toNat = w.walks.toNat + n := by
  induction n generalizing w with
  | zero => exact ⟨rfl, rfl⟩
  | succ n ih =>
    have hstep : w.step (.ask ap key capability) = ⟨w.grants, nextWalk w.walks⟩ := by
      have hfound : (walkUp ap w.hops capability (nextWalk w.walks)).search
          (chainMaxHops - 1) key w.grants = (some [], w.grants) := if_pos hroot
      exact congrArg (fun found => (⟨found.2, nextWalk w.walks⟩ : Walks)) hfound
    have hnext : (nextWalk w.walks).toNat = w.walks.toNat + 1 := nextWalk_of_lt (by omega)
    rw [List.replicate_succ, Walks.run, List.foldl_cons, ← Walks.run, hstep]
    obtain ⟨hgrants, hwalks⟩ := ih (w := ⟨w.grants, nextWalk w.walks⟩) (by
      dsimp only
      omega)
    refine ⟨hgrants, hwalks.trans ?_⟩
    dsimp only
    omega

end Run

/-- **The chain walk is right in every run whose walks each take a number no grant is marked
with**, and that is every run from marks up to the counter, as at a start, that does not take
the counter round. -/
theorem chain_walks (w : Walks) (steps : List WalkStep) :
    ((∀ before ap key capability after, steps = before ++ .ask ap key capability :: after →
        (w.run before).Fresh) →
      ∀ before ap key capability after, steps = before ++ .ask ap key capability :: after →
        ChainRight ap (w.run before).hops capability key
          (chainWalk ap (w.run before) key capability).1) ∧
    (w.Marked → w.walks.toNat + steps.length < 2 ^ 32 →
      ∀ before ap key capability after, steps = before ++ .ask ap key capability :: after →
        (w.run before).Fresh) := by
  refine ⟨fun hfresh before ap key capability after hsteps =>
    chainWalk_right (hfresh before ap key capability after hsteps) ap key capability,
    fun hmarked hlt before ap key capability after hsteps => ?_⟩
  rw [hsteps, List.length_append, List.length_cons] at hlt
  obtain ⟨hrun, hle⟩ := hmarked.run before (by omega)
  exact hrun.fresh (by omega)

/-- The index of one grant, at the start of a process. -/
def oneGrant : Walks := ⟨[grantTo noExpiry], 0⟩

/-- A walk for a capability no grant is of marks the grant, and the next walk finds it. -/
theorem chain_walks_second :
    (oneGrant.run [.ask oneRoot 2 ⟨6⟩]).grants.map Grant.deadWalk = [1] ∧
    ChainRight oneRoot (oneGrant.run [.ask oneRoot 2 ⟨6⟩]).hops ⟨5⟩ 2
      (chainWalk oneRoot (oneGrant.run [.ask oneRoot 2 ⟨6⟩]) 2 ⟨5⟩).1 := by
  have h := chain_walks oneGrant [.ask oneRoot 2 ⟨6⟩, .ask oneRoot 2 ⟨5⟩]
  exact ⟨by decide +kernel, h.1 (h.2 (by unfold Walks.Marked oneGrant; decide) (by decide))
    [.ask oneRoot 2 ⟨6⟩] oneRoot 2 ⟨5⟩ [] rfl⟩

/-- **The number comes round**: 2^32 - 1 walks after one of another capability that marked the
grant, the grant is passed over. -/
theorem chain_walks_wrap : ¬ ∀ (w : Walks) (steps : List WalkStep),
    (∀ g ∈ w.grants, g.deadWalk = 0) → w.walks = 0 → ∀ ap key capability,
      ChainRight ap (w.run steps).hops capability key
        (chainWalk ap (w.run steps) key capability).1 := by
  intro h
  have hfirst : oneGrant.run [.ask oneRoot 2 ⟨6⟩] = ⟨[{ grantTo noExpiry with
      deadWalk := 1, deadLeft := 8 }], 1⟩ := by
    have hgrants : (oneGrant.run [.ask oneRoot 2 ⟨6⟩]).grants = [{ grantTo noExpiry with
        deadWalk := 1, deadLeft := 8 }] := by decide +kernel
    have hwalks : (oneGrant.run [.ask oneRoot 2 ⟨6⟩]).walks = 1 := rfl
    rw [← hgrants, ← hwalks]
  have hright := h oneGrant
    ([.ask oneRoot 2 ⟨6⟩] ++ List.replicate (2 ^ 32 - 2) (.ask oneRoot 1 ⟨5⟩)) (by decide) rfl
    oneRoot 2 ⟨5⟩
  rw [Walks.run, List.foldl_append, ← Walks.run, ← Walks.run, hfirst] at hright
  have hroot : oneRoot.isRoot 1 = true := by decide
  obtain ⟨hgrants, hwalks⟩ := run_ask_root hroot ⟨5⟩
    (2 ^ 32 - 2) (w := ⟨[{ grantTo noExpiry with deadWalk := 1, deadLeft := 8 }], 1⟩) (by
      have hone : (1 : UInt32).toNat = 1 := rfl
      dsimp only
      omega)
  generalize Walks.run _ _ = w at hright hgrants hwalks
  obtain ⟨grants, walks⟩ := w
  dsimp only at hgrants hwalks
  have hlast : walks = UInt32.ofNat (2 ^ 32 - 1) := by
    rw [← UInt32.toNat_inj, hwalks]
    rfl
  rw [hgrants, hlast] at hright
  have hnone : (chainWalk oneRoot ⟨[{ grantTo noExpiry with deadWalk := 1, deadLeft := 8 }],
      UInt32.ofNat (2 ^ 32 - 1)⟩ 2 ⟨5⟩).1 = none := by decide +kernel
  rw [hnone] at hright
  have hreaches : Reaches oneRoot (Walks.hops ⟨[{ grantTo noExpiry with
      deadWalk := 1, deadLeft := 8 }], UInt32.ofNat (2 ^ 32 - 1)⟩) ⟨5⟩ (chainMaxHops - 1) 2 :=
    ⟨[(grantTo noExpiry).hop], by decide, ⟨List.mem_singleton_self _, rfl, rfl⟩, rfl⟩
  exact absurd (hright.found.2 (.inr hreaches)) Bool.noConfusion

end Node
end Fuzznet
