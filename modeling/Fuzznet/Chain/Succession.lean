/-
# Successions: who a key is now

`chain/succession.c`: `fzn_succession_counts`, `fzn_succession_resolve`.  A succession is a
signed record that one key is succeeded by another, issued by a root or an admin and kept
in a set.  Whether an entry counts is asked of the revocation store when it is read
(`successionCounts`), and `successionResolve` follows the counting ones from a key: to the
newest key, or to none where the way forks, comes back to where it was or runs past
`FZN_SUCCESSION_DEPTH_MAX`.

One key's successions are scanned once (`scanSuccessors`), and what the scan answers is a
matter of which keys they name (`namesOnly_iff`), so their order decides nothing.  The walk
over the scans is `Lib.follow`.

A set is used only where its count is within its array (`sound`); that is a field here.
-/

import Fuzznet.Chain.Admit
import Fuzznet.Lib.Follow

namespace Fuzznet
namespace Chain

open Wire

/-- `FZN_SUCCESSION_DEPTH_MAX`. -/
def successionDepthMax : ℕ := 16

/-- `fzn_succession_t`. -/
structure Succession where
  issuer : Key
  old : Key
  newKey : Key
  cut : RecId
  id : RecId
  deriving DecidableEq, Repr

/-- `fzn_succession_set_t`. -/
structure SuccessionSet where
  entries : List Succession
  capacity : ℕ
  hash : HashOps
  sound : entries.length ≤ capacity

/-- The entry counts: its issuer's word settles it, or is confirmed. -/
def Succession.confirmed (e : Succession) (s : RevocationStore) (root : Key) : Bool :=
  revocationConfirmed s e.issuer e.id root

/-- `fzn_succession_counts`. -/
def successionCounts (set : SuccessionSet) (i : ℕ) (s : RevocationStore) (root : Key) : Bool :=
  set.entries[i]?.any fun e => e.confirmed s root

/-- The inner loop of `fzn_succession_resolve`: the key the counting successions of `key`
name, if any; none for a fork. -/
def scanSuccessors (counting : Succession → Bool) (key : Key) :
    List Succession → Option Key → Option (Option Key)
  | [], next => some next
  | e :: es, next =>
    if e.old ≠ key ∨ counting e = false then scanSuccessors counting key es next
    else if next.any fun k => k ≠ e.newKey then none
    else scanSuccessors counting key es (some e.newKey)

/-- `fzn_succession_resolve`. -/
def successionResolve (set : SuccessionSet) (s : RevocationStore) (root key : Key) : Option Key :=
  Lib.follow (fun k => scanSuccessors (fun e => e.confirmed s root) k set.entries none)
    (successionDepthMax + 1) key

/-! ## One key's successions -/

section Scan

variable {counting : Succession → Bool} {key k : Key} {e : Succession} {es : List Succession}

/-- The keys the counting successions of `key` name. -/
def namedBy (counting : Succession → Bool) (key : Key) (es : List Succession) : List Key :=
  (es.filter fun e => e.old = key ∧ counting e = true).map Succession.newKey

theorem mem_namedBy : k ∈ namedBy counting key es ↔
    ∃ e ∈ es, e.old = key ∧ counting e = true ∧ e.newKey = k := by
  simp [namedBy, and_assoc]

theorem namedBy_cons_pos (he : ¬(e.old ≠ key ∨ counting e = false)) :
    namedBy counting key (e :: es) = e.newKey :: namedBy counting key es := by
  rw [namedBy, List.filter_cons_of_pos (by simpa using he)]
  rfl

theorem namedBy_cons_neg (he : e.old ≠ key ∨ counting e = false) :
    namedBy counting key (e :: es) = namedBy counting key es := by
  rw [namedBy, List.filter_cons_of_neg (by simpa [imp_iff_not_or] using he)]
  rfl

/-- A key named already is all that may be named. -/
theorem scanSuccessors_some {r : Option Key} :
    scanSuccessors counting key es (some k) = some r ↔
      (∀ x ∈ namedBy counting key es, x = k) ∧ r = some k := by
  induction es with
  | nil =>
    rw [scanSuccessors, Option.some.injEq]
    exact ⟨fun h => ⟨fun x hx => (List.not_mem_nil hx).elim, h.symm⟩, fun h => h.2.symm⟩
  | cons e es ih =>
    rw [scanSuccessors]
    by_cases he : ¬(e.old ≠ key ∨ counting e = false)
    · rw [if_neg he, namedBy_cons_pos he, List.forall_mem_cons]
      by_cases hk : k = e.newKey
      · subst hk
        simpa using ih
      · simp [hk, Ne.symm hk]
    · rw [if_pos (not_not.1 he), namedBy_cons_neg (not_not.1 he)]
      exact ih

/-- Where the scan starts again behind the first that counts. -/
theorem scanSuccessors_none : scanSuccessors counting key es none =
    match namedBy counting key es with
    | [] => some none
    | k :: ks => if ∀ x ∈ ks, x = k then some (some k) else none := by
  induction es with
  | nil => rfl
  | cons e es ih =>
    rw [scanSuccessors]
    by_cases he : ¬(e.old ≠ key ∨ counting e = false)
    · rw [if_neg he, if_neg (by simp), namedBy_cons_pos he]
      dsimp only
      split_ifs with hall
      · exact scanSuccessors_some.2 ⟨hall, rfl⟩
      · refine Option.eq_none_iff_forall_not_mem.2 fun r hr => hall ?_
        exact (scanSuccessors_some.1 hr).1
    · rw [if_pos (not_not.1 he), namedBy_cons_neg (not_not.1 he)]
      exact ih

/-- **The scan finds no successor** where none is named. -/
theorem scanSuccessors_eq_end : scanSuccessors counting key es none = some none ↔
    ∀ k, k ∉ namedBy counting key es := by
  rw [scanSuccessors_none]
  cases hnamed : namedBy counting key es with
  | nil => simp
  | cons k ks =>
    refine ⟨fun h => ?_, fun h => absurd List.mem_cons_self (h k)⟩
    dsimp only at h
    split_ifs at h with hall
    cases h

/-- **The scan finds the only key named.** -/
theorem scanSuccessors_eq_next : scanSuccessors counting key es none = some (some k) ↔
    k ∈ namedBy counting key es ∧ ∀ x ∈ namedBy counting key es, x = k := by
  rw [scanSuccessors_none]
  cases hnamed : namedBy counting key es with
  | nil => simp
  | cons k' ks =>
    dsimp only
    split_ifs with hall
    · rw [Option.some.injEq, Option.some.injEq]
      refine ⟨?_, fun h => h.2 k' List.mem_cons_self⟩
      rintro rfl
      exact ⟨List.mem_cons_self, List.forall_mem_cons.2 ⟨rfl, hall⟩⟩
    · refine ⟨nofun, fun h => absurd (fun x hx => ?_) hall⟩
      rw [h.2 x (List.mem_cons_of_mem k' hx), h.2 k' List.mem_cons_self]

/-- **The scan meets a fork** where two keys are named. -/
theorem scanSuccessors_eq_fork : scanSuccessors counting key es none = none ↔
    ∃ x ∈ namedBy counting key es, ∃ y ∈ namedBy counting key es, x ≠ y := by
  constructor
  · intro h
    by_contra hno
    push Not at hno
    cases hnamed : namedBy counting key es with
    | nil =>
      have hend := scanSuccessors_eq_end.2 fun k => by rw [hnamed]; exact List.not_mem_nil
      rw [h] at hend
      cases hend
    | cons k ks =>
      have hk : k ∈ namedBy counting key es := hnamed ▸ List.mem_cons_self
      have hnext := scanSuccessors_eq_next.2 ⟨hk, fun x hx => hno x hx k hk⟩
      rw [h] at hnext
      cases hnext
  · rintro ⟨x, hx, y, hy, hne⟩
    cases hscan : scanSuccessors counting key es none with
    | none => rfl
    | some r =>
      cases r with
      | none => exact absurd hx (scanSuccessors_eq_end.1 hscan x)
      | some k =>
        have hall := (scanSuccessors_eq_next.1 hscan).2
        exact absurd ((hall x hx).trans (hall y hy).symm) hne

/-- What a scan answers is a matter of which entries there are. -/
theorem scanSuccessors_congr {es' : List Succession} (h : ∀ e, e ∈ es ↔ e ∈ es') :
    scanSuccessors counting key es none = scanSuccessors counting key es' none := by
  have hnamed : ∀ k, k ∈ namedBy counting key es ↔ k ∈ namedBy counting key es' := fun k => by
    simp only [mem_namedBy, h]
  refine Option.ext fun r => ?_
  cases r with
  | none =>
    exact scanSuccessors_eq_end.trans
      ((forall_congr' fun k => not_congr (hnamed k)).trans scanSuccessors_eq_end.symm)
  | some k =>
    refine scanSuccessors_eq_next.trans (Iff.trans ?_ scanSuccessors_eq_next.symm)
    simp only [hnamed]

end Scan

/-! ## Following them -/

/-- A counting succession of `k` names `k'`. -/
def Names (set : SuccessionSet) (s : RevocationStore) (root k k' : Key) : Prop :=
  ∃ (i : ℕ) (e : Succession), set.entries[i]? = some e ∧ e.old = k ∧
    successionCounts set i s root = true ∧ e.newKey = k'

/-- `k'` is the only key named by counting successions of `k`. -/
def NamesOnly (set : SuccessionSet) (s : RevocationStore) (root k k' : Key) : Prop :=
  Names set s root k k' ∧ ∀ x, Names set s root k x → x = k'

section Resolve

variable {set : SuccessionSet} {s : RevocationStore} {root k k' : Key}

theorem names_iff_mem : Names set s root k k' ↔
    k' ∈ namedBy (fun e => e.confirmed s root) k set.entries := by
  rw [mem_namedBy]
  constructor
  · rintro ⟨i, e, hi, hold, hcounts, hnew⟩
    rw [successionCounts, hi] at hcounts
    exact ⟨e, List.mem_of_getElem? hi, hold, hcounts, hnew⟩
  · rintro ⟨e, he, hold, hcounts, hnew⟩
    obtain ⟨i, hi⟩ := List.mem_iff_getElem?.1 he
    refine ⟨i, e, hi, hold, ?_, hnew⟩
    rw [successionCounts, hi]
    exact hcounts

/-- The next key of a walk is the only one named. -/
theorem namesOnly_iff : NamesOnly set s root k k' ↔
    scanSuccessors (fun e => e.confirmed s root) k set.entries none = some (some k') := by
  rw [scanSuccessors_eq_next, NamesOnly, names_iff_mem]
  simp only [names_iff_mem]

/-- **Succession resolution.**  `fzn_succession_resolve` answers `k'` exactly when a path of
at most `FZN_SUCCESSION_DEPTH_MAX` steps leads there from the key, each step to the only key
named by counting successions of the one before, and nothing that counts succeeds `k'`.  It
answers none where the path comes to a fork, comes back to a key it passed or goes on past
the bound, and the order of the set's entries changes nothing. -/
theorem succession_resolution (set : SuccessionSet) (s : RevocationStore) (root key : Key) :
    (∀ k', successionResolve set s root key = some k' ↔
      ∃ n ≤ successionDepthMax, ∃ path : ℕ → Key, path 0 = key ∧ path n = k' ∧
        (∀ i < n, NamesOnly set s root (path i) (path (i + 1))) ∧ ∀ x, ¬Names set s root k' x) ∧
    (∀ (n : ℕ) (path : ℕ → Key), path 0 = key →
      (∀ i < n, NamesOnly set s root (path i) (path (i + 1))) →
        ((∃ x y, Names set s root (path n) x ∧ Names set s root (path n) y ∧ x ≠ y) ∨
          (∃ m < n, path m = path n) ∨ successionDepthMax < n) →
        successionResolve set s root key = none) ∧
    ∀ set' : SuccessionSet, set'.entries.Perm set.entries →
      successionResolve set' s root key = successionResolve set s root key := by
  have hpath : ∀ (n : ℕ) (path : ℕ → Key),
      (∀ i < n, NamesOnly set s root (path i) (path (i + 1))) → ∀ m ≤ n,
        Lib.Path (fun k => scanSuccessors (fun e => e.confirmed s root) k set.entries none) m
          (path 0) (path m) ∧
        Lib.Path (fun k => scanSuccessors (fun e => e.confirmed s root) k set.entries none)
          (n - m) (path m) (path n) := by
    intro n path hsteps m hm
    refine ⟨Lib.path_iff_places.2 ⟨path, rfl, rfl, fun i hi => ?_⟩,
      Lib.path_iff_places.2 ⟨fun i => path (m + i), rfl, ?_, fun i hi => ?_⟩⟩
    · exact namesOnly_iff.1 (hsteps i (by omega))
    · show path (m + (n - m)) = path n
      rw [Nat.add_sub_cancel' hm]
    · exact namesOnly_iff.1 (hsteps (m + i) (by omega))
  refine ⟨fun k' => ?_, fun n path hstart hsteps hbad => ?_, fun set' hperm => ?_⟩
  · rw [successionResolve, Lib.follow_eq_some_iff]
    constructor
    · rintro ⟨n, hn, hway, hend⟩
      obtain ⟨path, hfirst, hlast, hsteps⟩ := Lib.path_iff_places.1 hway
      refine ⟨n, by omega, path, hfirst, hlast, fun i hi => namesOnly_iff.2 (hsteps i hi),
        fun x hx => ?_⟩
      exact scanSuccessors_eq_end.1 hend x (names_iff_mem.1 hx)
    · rintro ⟨n, hn, path, rfl, rfl, hsteps, hend⟩
      refine ⟨n, by omega, (hpath n path hsteps n le_rfl).1, ?_⟩
      exact scanSuccessors_eq_end.2 fun x hx => hend x (names_iff_mem.2 hx)
  · subst hstart
    rcases hbad with ⟨x, y, hx, hy, hne⟩ | ⟨m, hm, hcircle⟩ | hlong
    · refine Lib.follow_of_parts (hpath n path hsteps n le_rfl).1 ?_
      exact scanSuccessors_eq_fork.2
        ⟨x, names_iff_mem.1 hx, y, names_iff_mem.1 hy, hne⟩
    · obtain ⟨hway, hround⟩ := hpath n path hsteps m hm.le
      obtain ⟨j, hj⟩ : ∃ j, n - m = j + 1 := ⟨n - m - 1, by omega⟩
      rw [hj, ← hcircle] at hround
      exact Lib.follow_of_circle hway hround
    · exact Lib.follow_of_long (hpath n path hsteps n le_rfl).1 hlong
  · unfold successionResolve
    congr 1
    funext k
    exact scanSuccessors_congr fun e => hperm.mem_iff

end Resolve

end Chain
end Fuzznet
