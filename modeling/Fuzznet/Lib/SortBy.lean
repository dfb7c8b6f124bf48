/-
# A list in the order of a rank

Sorting by a rank that tells the elements of a list apart has one outcome: the strictly
ascending list of those elements (`sortBy_eq`), however they came.  What is left of a sorted
list is sorted (`pairwise_sortBy`), so removing an element and sorting commute.
-/

import Mathlib.Data.List.Nodup
import Mathlib.Data.List.Sort
import Mathlib.Order.Lattice

namespace Fuzznet
namespace Lib

section

variable {α β : Type*} [LinearOrder β] (rank : α → β)

/-- The elements of a list by rank, the lowest first. -/
def sortBy (l : List α) : List α := l.insertionSort fun a b => rank a ≤ rank b

variable {rank}

@[simp] theorem mem_sortBy {l : List α} {a : α} : a ∈ sortBy rank l ↔ a ∈ l :=
  List.mem_insertionSort _

theorem sortBy_perm (l : List α) : (sortBy rank l).Perm l := List.perm_insertionSort _ l

/-- Elements of distinct ranks are sorted strictly. -/
theorem pairwise_sortBy {l : List α} (h : (l.map rank).Nodup) :
    (sortBy rank l).Pairwise fun a b => rank a < rank b := by
  have htotal : Std.Total fun a b : α => rank a ≤ rank b := ⟨fun a b => le_total _ _⟩
  have htrans : IsTrans α fun a b => rank a ≤ rank b := ⟨fun a b c => le_trans⟩
  have hle := List.pairwise_insertionSort (fun a b => rank a ≤ rank b) l
  have hnodup : ((sortBy rank l).map rank).Nodup := ((sortBy_perm l).map rank).nodup_iff.2 h
  have hne : (sortBy rank l).Pairwise fun a b => rank a ≠ rank b := List.pairwise_map.1 hnodup
  exact (List.Pairwise.and hle hne).imp fun hab => lt_of_le_of_ne hab.1 hab.2

/-- **There is one ascending list of some elements.** -/
theorem sortBy_eq {l s : List α} (hs : s.Pairwise fun a b => rank a < rank b) (h : l.Perm s) :
    sortBy rank l = s := by
  have hnodup : (l.map rank).Nodup :=
    (h.map rank).nodup_iff.2 (List.pairwise_map.2 (hs.imp fun hab => ne_of_lt hab))
  have hanti : Std.Antisymm fun a b : α => rank a < rank b :=
    ⟨fun a b hab hba => absurd hab (lt_asymm hba)⟩
  exact List.Perm.eq_of_pairwise' (pairwise_sortBy hnodup) hs ((sortBy_perm l).trans h)

end

/-! ## Insertion sort with a comparison that may fail

A key is moved down past the elements above it, and of elements that compare equal the first
is kept: the two loops of an in-place sort, over the elements in reverse, so that each loop
works at the head of a list.  The comparison is a computation of any monad.

Where every comparison made comes to the order of a rank, the outcome is the elements of the
list one for each rank, strictly ascending (`sortDedup_eq`), and there is one such list of
ranks (`ascending_unique`). -/

variable {α κ : Type} {m : Type → Type} [Monad m] (cmp : α → α → m Ordering)

/-- Put a key in behind the last element not above it, the elements standing in reverse. -/
def insertBack (key : α) : List α → m (List α)
  | [] => pure [key]
  | x :: xs => do
    match ← cmp x key with
    | .gt => return x :: (← insertBack key xs)
    | _ => return key :: x :: xs

/-- The elements put in one after the other, in reverse. -/
def sortBack (sorted : List α) : List α → m (List α)
  | [] => pure sorted
  | key :: l => do sortBack (← insertBack cmp key sorted) l

/-- The elements that are not equal to the one kept last, in reverse. -/
def keepBack (kept : List α) : List α → m (List α)
  | [] => pure kept
  | x :: l =>
    match kept with
    | [] => keepBack [x] l
    | k :: _ => do
      match ← cmp k x with
      | .eq => keepBack kept l
      | _ => keepBack (x :: kept) l

/-- The elements sorted, and of equal ones the first. -/
def sortDedup (l : List α) : m (List α) := do
  let sorted ← sortBack cmp [] l
  let kept ← keepBack cmp [] sorted.reverse
  return kept.reverse

/-! ## What it comes to -/

variable [Ord κ] {rank : α → κ}

/-- Strictly ascending ranks. -/
def Ascending (rank : α → κ) (l : List α) : Prop :=
  l.Pairwise fun a b => compare (rank a) (rank b) = .lt

variable {cmp} [LawfulMonad m]
variable [Std.TransOrd κ]

theorem insertBack_eq {key : α} {xs : List α}
    (hcmp : ∀ x ∈ xs, cmp x key = pure (compare (rank x) (rank key)))
    (hxs : xs.Pairwise fun a b => (compare (rank b) (rank a)).isLE) :
    ∃ s, insertBack cmp key xs = pure s ∧ s.Perm (key :: xs) ∧
      s.Pairwise fun a b => (compare (rank b) (rank a)).isLE := by
  induction xs with
  | nil => exact ⟨[key], rfl, List.Perm.refl _, List.pairwise_singleton _ _⟩
  | cons x xs ih =>
    obtain ⟨hx, hrest⟩ := List.pairwise_cons.1 hxs
    rw [insertBack, hcmp x List.mem_cons_self, pure_bind]
    by_cases hgt : compare (rank x) (rank key) = .gt
    · obtain ⟨s, hs, hperm, hdesc⟩ := ih (fun y hy => hcmp y (List.mem_cons_of_mem _ hy)) hrest
      refine ⟨x :: s, by rw [hgt, hs, pure_bind], ?_,
        List.pairwise_cons.2 ⟨fun y hy => ?_, hdesc⟩⟩
      · exact (hperm.cons x).trans (List.Perm.swap key x xs)
      · rcases List.mem_cons.1 (hperm.mem_iff.1 hy) with rfl | hy
        · rw [Std.OrientedCmp.gt_iff_lt] at hgt
          rw [hgt]
          rfl
        · exact hx y hy
    · have hle : (compare (rank x) (rank key)).isLE := Ordering.isLE_iff_ne_gt.2 hgt
      refine ⟨key :: x :: xs, ?_, List.Perm.refl _, List.pairwise_cons.2 ⟨fun y hy => ?_, hxs⟩⟩
      · cases hc : compare (rank x) (rank key) with
        | gt => exact absurd hc hgt
        | lt => rfl
        | eq => rfl
      · rcases List.mem_cons.1 hy with rfl | hy
        · exact hle
        · exact Std.TransCmp.isLE_trans (hx y hy) hle

/-- **The keys put in one after the other** stand in order. -/
theorem sortBack_eq (sorted : List α) {l : List α}
    (hcmp : ∀ x ∈ sorted ++ l, ∀ y ∈ sorted ++ l, cmp x y = pure (compare (rank x) (rank y)))
    (hsorted : sorted.Pairwise fun a b => (compare (rank b) (rank a)).isLE) :
    ∃ s, sortBack cmp sorted l = pure s ∧ s.Perm (sorted ++ l) ∧
      s.Pairwise fun a b => (compare (rank b) (rank a)).isLE := by
  induction l generalizing sorted with
  | nil => exact ⟨sorted, rfl, by rw [List.append_nil], hsorted⟩
  | cons key l ih =>
    have hkey : ∀ x ∈ sorted, cmp x key = pure (compare (rank x) (rank key)) :=
      fun x hx => hcmp x (List.mem_append_left _ hx) key (by simp)
    obtain ⟨s, hs, hperm, hdesc⟩ := insertBack_eq hkey hsorted
    have hall : (s ++ l).Perm (sorted ++ key :: l) :=
      (hperm.append_right l).trans List.perm_middle.symm
    obtain ⟨s', hs', hperm', hdesc'⟩ := ih s
      (fun x hx y hy => hcmp x (hall.mem_iff.1 hx) y (hall.mem_iff.1 hy)) hdesc
    exact ⟨s', by rw [sortBack, hs, pure_bind, hs'], hperm'.trans hall, hdesc'⟩

/-- **The first of each rank is kept** of elements that stand in order. -/
theorem keepBack_eq [Std.LawfulEqOrd κ] (kept : List α) {l : List α}
    (hcmp : ∀ x ∈ kept ++ l, ∀ y ∈ kept ++ l, cmp x y = pure (compare (rank x) (rank y)))
    (hkept : kept.Pairwise fun a b => compare (rank b) (rank a) = .lt)
    (hl : l.Pairwise fun a b => (compare (rank a) (rank b)).isLE)
    (hle : ∀ k ∈ kept.head?, ∀ x ∈ l, (compare (rank k) (rank x)).isLE) :
    ∃ s, keepBack cmp kept l = pure s ∧ s.reverse.Sublist (kept.reverse ++ l) ∧
      (s.Pairwise fun a b => compare (rank b) (rank a) = .lt) ∧
      ∀ x ∈ kept ++ l, ∃ y ∈ s, rank y = rank x := by
  induction l generalizing kept with
  | nil => exact ⟨kept, rfl, by simp, hkept, fun x hx => ⟨x, by simpa using hx, rfl⟩⟩
  | cons x l ih =>
    obtain ⟨hx, hrest⟩ := List.pairwise_cons.1 hl
    have hadd : (∀ k ∈ kept, compare (rank k) (rank x) = .lt) →
        ∃ s, keepBack cmp (x :: kept) l = pure s ∧ s.reverse.Sublist (kept.reverse ++ x :: l) ∧
          (s.Pairwise fun a b => compare (rank b) (rank a) = .lt) ∧
          ∀ y ∈ kept ++ x :: l, ∃ z ∈ s, rank z = rank y := by
      intro hlt
      obtain ⟨s, hs, hsub, hdesc, hall⟩ := ih (x :: kept)
        (fun y hy z hz => hcmp y (by simp at hy ⊢; tauto) z (by simp at hz ⊢; tauto))
        (List.pairwise_cons.2 ⟨hlt, hkept⟩) hrest (by simpa using hx)
      refine ⟨s, hs, by simpa using hsub, hdesc, fun y hy => hall y ?_⟩
      simp at hy ⊢
      tauto
    cases kept with
    | nil => exact hadd (by simp)
    | cons k kept =>
      have hkx := hle k rfl x List.mem_cons_self
      rw [keepBack, hcmp k (by simp) x (by simp), pure_bind]
      by_cases heq : compare (rank k) (rank x) = .eq
      · have hrank : rank k = rank x := Std.LawfulEqCmp.compare_eq_iff_eq.1 heq
        obtain ⟨s, hs, hsub, hdesc, hall⟩ := ih (k :: kept)
          (fun y hy z hz => hcmp y (by simp at hy ⊢; tauto) z (by simp at hz ⊢; tauto)) hkept
          hrest (fun j hj y hy => hle j hj y (List.mem_cons_of_mem _ hy))
        refine ⟨s, by rw [heq, hs], hsub.trans ?_, hdesc, fun y hy => ?_⟩
        · exact List.Sublist.append_left (List.sublist_cons_self x l) _
        · rcases List.mem_append.1 hy with hy | hy
          · exact hall y (List.mem_append_left _ hy)
          · rcases List.mem_cons.1 hy with rfl | hy
            · obtain ⟨z, hz, hzk⟩ := hall k (by simp)
              exact ⟨z, hz, hzk.trans hrank⟩
            · exact hall y (List.mem_append_right _ hy)
      · have hlt : compare (rank k) (rank x) = .lt := by
          cases hc : compare (rank k) (rank x) with
          | lt => rfl
          | eq => exact absurd hc heq
          | gt => rw [hc] at hkx; exact absurd hkx (by decide)
        obtain ⟨hk, -⟩ := List.pairwise_cons.1 hkept
        obtain ⟨s, hs, hrest⟩ := hadd fun j hj => by
          rcases List.mem_cons.1 hj with rfl | hj
          · exact hlt
          · exact Std.TransCmp.lt_trans (hk j hj) hlt
        exact ⟨s, by rw [hlt, hs], hrest⟩

/-- **Sorted, and one for each rank.** -/
theorem sortDedup_eq [Std.LawfulEqOrd κ] {l : List α}
    (hcmp : ∀ x ∈ l, ∀ y ∈ l, cmp x y = pure (compare (rank x) (rank y))) :
    ∃ s, sortDedup cmp l = pure s ∧ s.Subperm l ∧ Ascending rank s ∧
      ∀ x ∈ l, ∃ y ∈ s, rank y = rank x := by
  obtain ⟨sorted, hsorted, hperm, hdesc⟩ := sortBack_eq []
    (by simpa using hcmp) List.Pairwise.nil
  rw [List.nil_append] at hperm
  have hmem : ∀ x, x ∈ sorted.reverse ↔ x ∈ l := fun x => by rw [List.mem_reverse, hperm.mem_iff]
  obtain ⟨kept, hkept, hsub, hasc, hall⟩ := keepBack_eq [] (l := sorted.reverse)
    (fun x hx y hy => hcmp x (by simpa [hmem] using hx) y (by simpa [hmem] using hy))
    List.Pairwise.nil (List.pairwise_reverse.2 hdesc) (by simp)
  refine ⟨kept.reverse, ?_, ?_, List.pairwise_reverse.2 hasc, fun x hx => ?_⟩
  · rw [sortDedup, hsorted, pure_bind, hkept, pure_bind]
  · exact hsub.subperm.trans ((List.reverse_perm _).trans hperm).subperm
  · obtain ⟨y, hy, hrank⟩ := hall x (by simpa [hmem] using hx)
    exact ⟨y, List.mem_reverse.2 hy, hrank⟩

/-- **There is one ascending list of some ranks.** -/
theorem ascending_unique {s s' : List α} (hs : Ascending rank s) (hs' : Ascending rank s')
    (h : ∀ k, k ∈ s.map rank ↔ k ∈ s'.map rank) : s.map rank = s'.map rank := by
  have hlt : ∀ {l : List α}, Ascending rank l →
      (l.map rank).Pairwise fun a b => compare a b = .lt := fun hl => List.pairwise_map.2 hl
  have hnodup : ∀ {l : List α}, Ascending rank l → (l.map rank).Nodup := by
    intro l hl
    refine (hlt hl).imp fun hab => ?_
    rintro rfl
    exact absurd ((Std.ReflCmp.compare_self : compare _ _ = .eq).symm.trans hab) (by decide)
  have hanti : Std.Antisymm fun a b : κ => compare a b = .lt := by
    refine ⟨fun a b hab hba => ?_⟩
    have hgt : compare b a = .gt := Std.OrientedCmp.gt_iff_lt.2 hab
    exact absurd (hba.symm.trans hgt) (by decide)
  exact List.Perm.eq_of_pairwise' (hlt hs) (hlt hs')
    ((List.perm_ext_iff_of_nodup (hnodup hs) (hnodup hs')).2 h)

end Lib
end Fuzznet
