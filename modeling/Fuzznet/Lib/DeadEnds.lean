/-
# A search that remembers dead ends

A depth-first search from a node along edges to a goal, so many edges deep at the most.  It
stops at the first goal it meets, and a node found to lead to none with so many edges left
is marked, and passed over from then on with as many or fewer.

What it finds is the first path of those a search without marks lists (`search_eq`), so the
marks cost nothing but time: they stay true (`Sound`), since a node that leads nowhere with
`n` edges leads nowhere with fewer (`paths_nil_of_le`).
-/

import Mathlib.Data.Nat.Notation
import Mathlib.Order.Basic

namespace Fuzznet
namespace Lib

/-- A search: its goals, the edges out of a node in the order they are tried, and the marks
`μ` on nodes.  A mark says nothing of another node, or of more edges. -/
structure DeadEnds (α ε μ : Type*) where
  goal : α → Bool
  edges : α → List ε
  target : ε → α
  dead : μ → α → ℕ → Bool
  mark : μ → α → ℕ → μ
  dead_mark : ∀ {m a n a' n'}, dead (mark m a n) a' n' = true →
    dead m a' n' = true ∨ a' = a ∧ n' ≤ n

namespace DeadEnds

variable {α ε μ : Type*} (S : DeadEnds α ε μ)

/-- The paths to a first goal, of at most so many edges, in the order of the search. -/
def paths : ℕ → α → List (List ε)
  | 0, a => if S.goal a then [[]] else []
  | n + 1, a =>
    if S.goal a then [[]]
    else (S.edges a).flatMap fun e => (paths n (S.target e)).map (e :: ·)

/-- The edges tried one after the other, `up` being the search behind one. -/
def tryEdges (up : α → μ → Option (List ε) × μ) : List ε → μ → Option (List ε) × μ
  | [], m => (none, m)
  | e :: rest, m =>
    match up (S.target e) m with
    | (some path, m') => (some (e :: path), m')
    | (none, m') => tryEdges up rest m'

/-- The search, and the marks behind it. -/
def search : ℕ → α → μ → Option (List ε) × μ
  | 0, a, m => (if S.goal a then some [] else none, m)
  | n + 1, a, m =>
    if S.goal a then (some [], m)
    else if S.dead m a (n + 1) then (none, m)
    else
      match S.tryEdges (search n) (S.edges a) m with
      | (some path, m') => (some path, m')
      | (none, m') => (none, S.mark m' a (n + 1))

/-- A path that may meet goals on its way, down to one. -/
def Leads : α → List ε → Prop
  | a, [] => S.goal a = true
  | a, e :: rest => e ∈ S.edges a ∧ Leads (S.target e) rest

/-- The marks are of nodes that lead nowhere. -/
def Sound (m : μ) : Prop := ∀ a n, S.dead m a n = true → S.paths n a = []

variable {S} {m : μ} {a : α} {n k : ℕ} {path : List ε}

theorem paths_of_goal (h : S.goal a = true) : S.paths n a = [[]] := by
  cases n <;> exact if_pos h

theorem paths_succ_of_not_goal (h : S.goal a = false) :
    S.paths (n + 1) a = (S.edges a).flatMap fun e => (S.paths n (S.target e)).map (e :: ·) :=
  if_neg (by rw [h]; exact Bool.noConfusion)

/-- The paths are of the goals and the edges alone. -/
theorem paths_congr {μ' : Type*} {S' : DeadEnds α ε μ'} (hgoal : S.goal = S'.goal)
    (hedges : S.edges = S'.edges) (htarget : S.target = S'.target) (n : ℕ) (a : α) :
    S.paths n a = S'.paths n a := by
  induction n generalizing a with
  | zero =>
    unfold paths
    rw [hgoal]
  | succ n ih =>
    unfold paths
    rw [hgoal, hedges, htarget]
    simp only [ih]

/-- **A node that leads nowhere leads nowhere with fewer edges.** -/
theorem paths_nil_of_le (hle : k ≤ n) (h : S.paths n a = []) : S.paths k a = [] := by
  induction n generalizing k a with
  | zero => rwa [Nat.le_zero.1 hle]
  | succ n ih =>
    cases hgoal : S.goal a with
    | true =>
      rw [paths_of_goal hgoal] at h
      cases h
    | false =>
      cases k with
      | zero => exact if_neg (by rw [hgoal]; exact Bool.noConfusion)
      | succ k =>
        rw [paths_succ_of_not_goal hgoal, List.flatMap_eq_nil_iff] at h ⊢
        intro e he
        rw [ih (Nat.le_of_succ_le_succ hle) (List.map_eq_nil_iff.1 (h e he)), List.map_nil]

theorem Sound.mark (hm : S.Sound m) (h : S.paths n a = []) : S.Sound (S.mark m a n) := by
  intro a' n' hdead
  rcases S.dead_mark hdead with hbefore | ⟨rfl, hle⟩
  · exact hm a' n' hbefore
  · exact paths_nil_of_le hle h

/-- The edges tried come to the first path behind the first that has one. -/
theorem tryEdges_eq {up : α → μ → Option (List ε) × μ}
    (hup : ∀ a m, S.Sound m → (up a m).1 = (S.paths n a).head? ∧ S.Sound (up a m).2)
    (hm : S.Sound m) (es : List ε) :
    (S.tryEdges up es m).1 = (es.flatMap fun e => (S.paths n (S.target e)).map (e :: ·)).head? ∧
      S.Sound (S.tryEdges up es m).2 := by
  induction es generalizing m with
  | nil => exact ⟨rfl, hm⟩
  | cons e rest ih =>
    obtain ⟨hfound, hsound⟩ := hup (S.target e) m hm
    unfold tryEdges
    rw [List.flatMap_cons]
    cases hup' : up (S.target e) m with
    | mk found m' =>
      rw [hup'] at hfound hsound
      cases found with
      | none =>
        have hnil : S.paths n (S.target e) = [] := List.head?_eq_none_iff.1 hfound.symm
        rw [hnil, List.map_nil, List.nil_append]
        exact ih hsound
      | some path =>
        refine ⟨?_, hsound⟩
        rw [List.head?_append, List.head?_map, ← hfound]
        rfl

/-- **The search finds the first path there is**, and its marks stay true. -/
theorem search_eq (hm : S.Sound m) :
    (S.search n a m).1 = (S.paths n a).head? ∧ S.Sound (S.search n a m).2 := by
  induction n generalizing a m with
  | zero =>
    refine ⟨?_, hm⟩
    unfold search paths
    cases S.goal a <;> rfl
  | succ n ih =>
    unfold search
    cases hgoal : S.goal a with
    | true =>
      rw [paths_of_goal hgoal]
      exact ⟨rfl, hm⟩
    | false =>
      rw [if_neg Bool.noConfusion]
      cases hdead : S.dead m a (n + 1) with
      | true =>
        rw [hm a (n + 1) hdead]
        exact ⟨rfl, hm⟩
      | false =>
        rw [if_neg Bool.noConfusion, paths_succ_of_not_goal hgoal]
        obtain ⟨hfound, hsound⟩ := tryEdges_eq (fun _ _ => ih) hm (S.edges a)
        cases htried : S.tryEdges (S.search n) (S.edges a) m with
        | mk found m' =>
          rw [htried] at hfound hsound
          cases found with
          | some path => exact ⟨hfound, hsound⟩
          | none =>
            have hnil := List.head?_eq_none_iff.1 hfound.symm
            refine ⟨hfound, hsound.mark ?_⟩
            rw [paths_succ_of_not_goal hgoal, hnil]

/-- What every mark keeps, the search keeps. -/
theorem search_induction {P : μ → Prop} (hmark : ∀ m a n, P m → P (S.mark m a n)) (hm : P m) :
    P (S.search n a m).2 := by
  induction n generalizing a m with
  | zero => exact hm
  | succ n ih =>
    have htry : ∀ (es : List ε) m, P m → P (S.tryEdges (S.search n) es m).2 := by
      intro es
      induction es with
      | nil => exact fun _ hm => hm
      | cons e rest ihes =>
        intro m hm
        unfold tryEdges
        have hup : P (S.search n (S.target e) m).2 := ih hm
        cases hfound : S.search n (S.target e) m with
        | mk found m' =>
          rw [hfound] at hup
          cases found with
          | some path => exact hup
          | none => exact ihes m' hup
    have hbehind := htry (S.edges a) m hm
    unfold search
    split
    · exact hm
    · split
      · exact hm
      · cases htried : S.tryEdges (S.search n) (S.edges a) m with
        | mk found m' =>
          rw [htried] at hbehind
          cases found with
          | some path => exact hbehind
          | none => exact hmark m' a (n + 1) hbehind

/-- A path listed leads to a goal, within its edges. -/
theorem leads_of_mem (h : path ∈ S.paths n a) : S.Leads a path ∧ path.length ≤ n := by
  induction n generalizing a path with
  | zero =>
    unfold paths at h
    split at h
    next hgoal =>
      obtain rfl := List.mem_singleton.1 h
      exact ⟨hgoal, Nat.le_refl 0⟩
    next => cases h
  | succ n ih =>
    cases hgoal : S.goal a with
    | true =>
      rw [paths_of_goal hgoal] at h
      obtain rfl := List.mem_singleton.1 h
      exact ⟨hgoal, Nat.zero_le _⟩
    | false =>
      rw [paths_succ_of_not_goal hgoal] at h
      obtain ⟨e, he, hpath⟩ := List.mem_flatMap.1 h
      obtain ⟨rest, hrest, rfl⟩ := List.mem_map.1 hpath
      obtain ⟨hleads, hle⟩ := ih hrest
      exact ⟨⟨he, hleads⟩, Nat.succ_le_succ hle⟩

/-- **Where a path leads to a goal there is one listed.** -/
theorem paths_ne_nil (h : S.Leads a path) (hle : path.length ≤ n) : S.paths n a ≠ [] := by
  induction path generalizing a n with
  | nil =>
    rw [paths_of_goal h]
    exact List.cons_ne_nil _ _
  | cons e rest ih =>
    cases hgoal : S.goal a with
    | true =>
      rw [paths_of_goal hgoal]
      exact List.cons_ne_nil _ _
    | false =>
      cases n with
      | zero => cases hle
      | succ n =>
        rw [paths_succ_of_not_goal hgoal, Ne, List.flatMap_eq_nil_iff]
        intro hnil
        exact ih h.2 (Nat.le_of_succ_le_succ hle) (List.map_eq_nil_iff.1 (hnil e h.1))

/-! ## What the first path passes over -/

variable {e : ε} {rest : List ε}

theorem head?_flatMap_cons {f : ε → List (List ε)} {es : List ε}
    (h : (es.flatMap fun e => (f e).map (e :: ·)).head? = some (e :: rest)) :
    ∃ before behind, es = before ++ e :: behind ∧ (∀ e' ∈ before, f e' = []) ∧
      (f e).head? = some rest := by
  induction es with
  | nil => cases h
  | cons e' es ih =>
    rw [List.flatMap_cons, List.head?_append, List.head?_map] at h
    cases hfirst : (f e').head? with
    | none =>
      rw [hfirst, Option.map_none, Option.none_or] at h
      obtain ⟨before, behind, rfl, hnil, hrest⟩ := ih h
      refine ⟨e' :: before, behind, rfl, fun d hd => ?_, hrest⟩
      rcases List.mem_cons.1 hd with rfl | hd
      · exact List.head?_eq_none_iff.1 hfirst
      · exact hnil d hd
    | some path =>
      rw [hfirst, Option.map_some, Option.some_or] at h
      obtain ⟨rfl, rfl⟩ := List.cons.inj (Option.some.inj h)
      exact ⟨[], es, rfl, fun d hd => absurd hd List.not_mem_nil, hfirst⟩

/-- A path with an edge is of a node that is no goal, with an edge left. -/
theorem head?_paths_cons (h : (S.paths n a).head? = some (e :: rest)) :
    ∃ k, n = k + 1 ∧
      ((S.edges a).flatMap fun e => (S.paths k (S.target e)).map (e :: ·)).head? =
        some (e :: rest) := by
  cases hgoal : S.goal a with
  | true =>
    rw [paths_of_goal hgoal] at h
    cases Option.some.inj h
  | false =>
    cases n with
    | zero =>
      unfold paths at h
      rw [hgoal, if_neg Bool.noConfusion] at h
      cases h
    | succ n => exact ⟨n, rfl, by rwa [paths_succ_of_not_goal hgoal] at h⟩

/-- **Along the first path, every edge tried before the one taken leads nowhere** with the
edges that are left. -/
theorem first_passes_over {front : List ε}
    (h : (S.paths n a).head? = some (front ++ e :: rest)) :
    ∃ b before behind, S.edges b = before ++ e :: behind ∧
      ∀ e' ∈ before, S.paths (n - (front.length + 1)) (S.target e') = [] := by
  induction front generalizing n a with
  | nil =>
    obtain ⟨k, rfl, hflat⟩ := head?_paths_cons h
    obtain ⟨before, behind, hedges, hnil, -⟩ := head?_flatMap_cons hflat
    exact ⟨a, before, behind, hedges, hnil⟩
  | cons d front ih =>
    obtain ⟨k, rfl, hflat⟩ := head?_paths_cons h
    obtain ⟨-, -, -, -, hrest⟩ := head?_flatMap_cons hflat
    rw [List.length_cons, Nat.add_sub_add_right]
    exact ih hrest

end DeadEnds

end Lib
end Fuzznet
