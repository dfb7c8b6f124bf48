/-
# Logs of which the lower fork stands

A log takes the acts offered to it one at a time.  An act names its place: at the head it is
added, and at a place filled it stands instead of an act of a higher key, whose followers go
with it; either way only if it is accepted behind the acts before its place.  What is accepted
depends on all of them, so that a fork won may make room for acts refused before.

However the acts of a set are offered, pass after pass, the log comes to rest
(`exists_rest`), since the keys read from the first place on only fall; and two logs at rest
are one (`AtRest.unique`): at every place the lowest of the acts accepted there stands
(`AtRest.lowest`).
-/

import Mathlib.Data.DFinsupp.WellFounded
import Mathlib.Algebra.Order.Monoid.Unbundled.WithTop

namespace Fuzznet
namespace Lib

/-- What a log takes: where an act goes, which of two at one place stands, and whether one is
accepted behind a log. -/
structure Forks (α : Type*) where
  place : α → ℕ
  key : α → ℕ
  accepts : List α → α → Bool

namespace Forks

variable {α : Type*}

/-- An act offered to a log. -/
def offer (F : Forks α) (log : List α) (a : α) : List α :=
  if F.place a ≤ log.length ∧ F.accepts (log.take (F.place a)) a then
    match log[F.place a]? with
    | none => log ++ [a]
    | some there => if F.key a < F.key there then log.take (F.place a) ++ [a] else log
  else log

/-- A log of acts of `S`, each at its place and accepted behind those before it. -/
def Lawful (F : Forks α) (S : Set α) (log : List α) : Prop :=
  ∀ i a, log[i]? = some a → a ∈ S ∧ F.place a = i ∧ F.accepts (log.take i) a = true

/-- A lawful log that no act of `S` changes. -/
structure AtRest (F : Forks α) (S : Set α) (log : List α) : Prop where
  lawful : F.Lawful S log
  rest : ∀ a ∈ S, F.offer log a = log

variable {F : Forks α} {S : Set α} {log log' : List α} {a b : α} {N : ℕ}

theorem lawful_nil (F : Forks α) (S : Set α) : F.Lawful S [] := fun i a h => by
  rw [List.getElem?_nil] at h
  cases h

/-- An act accepted that finds none of its key or a lower one stands. -/
theorem offer_eq (hle : F.place a ≤ log.length)
    (haccepts : F.accepts (log.take (F.place a)) a = true)
    (hlower : ∀ there, log[F.place a]? = some there → F.key a < F.key there) :
    F.offer log a = log.take (F.place a) ++ [a] := by
  unfold offer
  rw [if_pos ⟨hle, haccepts⟩]
  cases hx : log[F.place a]? with
  | none =>
    dsimp only
    rw [List.take_of_length_le (List.getElem?_eq_none_iff.1 hx)]
  | some there =>
    dsimp only
    rw [if_pos (hlower there hx)]

/-- **What an offer does**: nothing, or the act stands behind the acts before its place, where
none of its key or a lower one stood. -/
theorem offer_cases (F : Forks α) (log : List α) (a : α) : F.offer log a = log ∨
    F.place a ≤ log.length ∧ F.accepts (log.take (F.place a)) a = true ∧
      (∀ there, log[F.place a]? = some there → F.key a < F.key there) ∧
      F.offer log a = log.take (F.place a) ++ [a] := by
  by_cases h : F.place a ≤ log.length ∧ F.accepts (log.take (F.place a)) a = true
  · by_cases hlower : ∀ there, log[F.place a]? = some there → F.key a < F.key there
    · exact .inr ⟨h.1, h.2, hlower, offer_eq h.1 h.2 hlower⟩
    · push Not at hlower
      obtain ⟨there, hx, hge⟩ := hlower
      unfold offer
      rw [if_pos h, hx]
      exact .inl (if_neg (not_lt.2 hge))
  · exact .inl (if_neg h)

/-- An act accepted that changes nothing finds an act of its key or a lower one. -/
theorem key_le_of_offer (h : F.offer log a = log) (hle : F.place a ≤ log.length)
    (haccepts : F.accepts (log.take (F.place a)) a = true) :
    ∃ there, log[F.place a]? = some there ∧ F.key there ≤ F.key a := by
  unfold offer at h
  rw [if_pos ⟨hle, haccepts⟩] at h
  cases hx : log[F.place a]? with
  | none =>
    rw [hx] at h
    exact absurd (congrArg List.length h) (by simp)
  | some there =>
    rw [hx] at h
    refine ⟨there, rfl, not_lt.1 fun hlt => ?_⟩
    dsimp only at h
    rw [if_pos hlt] at h
    have hput : (log.take (F.place a) ++ [a])[F.place a]? = some a := by
      rw [List.getElem?_append_right (by rw [List.length_take]; omega), List.length_take,
        Nat.min_eq_left hle, Nat.sub_self]
      rfl
    rw [h, hx] at hput
    rw [Option.some.inj hput] at hlt
    exact lt_irrefl _ hlt

/-- An act put behind the acts before its place keeps a log lawful. -/
theorem Lawful.put (h : F.Lawful S log) (ha : a ∈ S) (hle : F.place a ≤ log.length)
    (haccepts : F.accepts (log.take (F.place a)) a = true) :
    F.Lawful S (log.take (F.place a) ++ [a]) := by
  intro i b hb
  have hlen : (log.take (F.place a)).length = F.place a := by
    rw [List.length_take]
    omega
  rcases lt_trichotomy i (F.place a) with hlt | rfl | hgt
  · rw [List.getElem?_append_left (by omega), List.getElem?_take_of_lt hlt] at hb
    rw [List.take_append_of_le_length (by omega), List.take_take, Nat.min_eq_left hlt.le]
    exact h i b hb
  · rw [List.getElem?_append_right hlen.le, hlen, Nat.sub_self] at hb
    obtain rfl := Option.some.inj hb
    rw [List.take_append_of_le_length hlen.ge, List.take_of_length_le hlen.le]
    exact ⟨ha, rfl, haccepts⟩
  · rw [List.getElem?_eq_none (by rw [List.length_append, List.length_singleton]; omega)] at hb
    cases hb

theorem Lawful.offer (h : F.Lawful S log) (ha : a ∈ S) : F.Lawful S (F.offer log a) := by
  rcases F.offer_cases log a with heq | ⟨hle, haccepts, -, heq⟩
  · rw [heq]
    exact h
  · rw [heq]
    exact h.put ha hle haccepts

/-! ## Rest -/

/-- The keys of a log's first `N` places, nothing above all of them. -/
def rank (F : Forks α) (N : ℕ) (log : List α) : Fin N → WithTop ℕ :=
  fun i => log[(i : ℕ)]?.elim ⊤ fun a => (F.key a : WithTop ℕ)

/-- One log before another: at the first place they differ its key is the lower. -/
def Before (F : Forks α) (N : ℕ) (log' log : List α) : Prop :=
  Pi.Lex (· < ·) (· < ·) (F.rank N log') (F.rank N log)

theorem wellFounded_before (F : Forks α) (N : ℕ) :
    WellFounded (Relation.TransGen (F.Before N)) :=
  (InvImage.wf (F.rank N) (Pi.Lex.wellFounded (· < ·) fun _ => wellFounded_lt)).transGen

/-- **An offer that changes a log** puts it before what it was. -/
theorem before_of_offer (hN : F.place a < N) (h : F.offer log a ≠ log) :
    F.Before N (F.offer log a) log := by
  rcases F.offer_cases log a with heq | ⟨hle, -, hlower, heq⟩
  · exact absurd heq h
  rw [heq]
  have hlen : (log.take (F.place a)).length = F.place a := by
    rw [List.length_take]
    omega
  refine ⟨⟨F.place a, hN⟩, fun j hj => ?_, ?_⟩
  · have hlt : (j : ℕ) < F.place a := hj
    show ((log.take (F.place a) ++ [a])[(j : ℕ)]?).elim _ _ = _
    rw [List.getElem?_append_left (by omega), List.getElem?_take_of_lt hlt]
    rfl
  · show ((log.take (F.place a) ++ [a])[F.place a]?).elim _ _ < (log[F.place a]?).elim _ _
    rw [List.getElem?_append_right hlen.le, hlen, Nat.sub_self]
    cases hx : log[F.place a]? with
    | none => exact WithTop.coe_lt_top _
    | some there => exact WithTop.coe_lt_coe.2 (hlower there hx)

/-- A pass leaves a log as it was or before it. -/
theorem foldl_before {pass : List α} (hN : ∀ a ∈ pass, F.place a < N) (log : List α) :
    pass.foldl F.offer log = log ∨
      Relation.TransGen (F.Before N) (pass.foldl F.offer log) log := by
  induction pass generalizing log with
  | nil => exact .inl rfl
  | cons a pass ih =>
    obtain ⟨ha, hpass⟩ := List.forall_mem_cons.1 hN
    rw [List.foldl_cons]
    by_cases heq : F.offer log a = log
    · rw [heq]
      exact ih hpass log
    · have hbefore := before_of_offer ha heq
      rcases ih hpass (F.offer log a) with hsame | htrans
      · rw [hsame]
        exact .inr (.single hbefore)
      · exact .inr (htrans.tail hbefore)

/-- **A pass that leaves a log** is of offers that change nothing. -/
theorem offer_of_foldl {pass : List α} (hN : ∀ a ∈ pass, F.place a < N)
    (h : pass.foldl F.offer log = log) : ∀ a ∈ pass, F.offer log a = log := by
  induction pass with
  | nil => exact fun _ ha => absurd ha List.not_mem_nil
  | cons a pass ih =>
    obtain ⟨ha, hpass⟩ := List.forall_mem_cons.1 hN
    rw [List.foldl_cons] at h
    have heq : F.offer log a = log := by
      by_contra hne
      have hbefore := before_of_offer ha hne
      have hround : Relation.TransGen (F.Before N) log log := by
        rcases foldl_before hpass (F.offer log a) with hsame | htrans
        · rw [h] at hsame
          exact absurd hsame.symm hne
        · rw [h] at htrans
          exact htrans.tail hbefore
      exact (F.wellFounded_before N).irrefl.irrefl log hround
    rw [heq] at h
    exact List.forall_mem_cons.2 ⟨heq, ih hpass h⟩

/-- **A log comes to rest**: however it is taken through passes, behind some pass it stays. -/
theorem exists_rest {passes : ℕ → List α} {logs : ℕ → List α}
    (hN : ∀ n, ∀ a ∈ passes n, F.place a < N)
    (hlogs : ∀ n, logs (n + 1) = (passes n).foldl F.offer (logs n)) :
    ∃ n, ∀ m, n ≤ m → logs m = logs n := by
  suffices h : ∀ log n, logs n = log → ∃ n, ∀ m, n ≤ m → logs m = logs n from h _ 0 rfl
  intro log
  induction log using (F.wellFounded_before N).induction with
  | h log ih =>
    intro n hn
    by_cases hstay : ∀ m, n ≤ m → logs m = logs n
    · exact ⟨n, hstay⟩
    -- the first pass behind which the log is another
    classical
    push Not at hstay
    obtain ⟨m, ⟨hle, hne⟩, hfirst⟩ := Nat.findX hstay
    rcases Nat.eq_or_lt_of_le hle with rfl | hlt
    · exact absurd rfl hne
    obtain ⟨k, rfl⟩ := Nat.exists_eq_succ_of_ne_zero (by omega : m ≠ 0)
    have hk : logs k = log := by
      by_contra hk
      exact hfirst k (Nat.lt_succ_self k) ⟨by omega, hn ▸ hk⟩
    rcases foldl_before (hN k) (logs k) with hsame | htrans
    · rw [← hlogs, hk] at hsame
      exact absurd (hsame.trans hn.symm) hne
    · rw [← hlogs, hk] at htrans
      exact ih _ htrans (k + 1) rfl

/-! ## One log -/

/-- **At every place the lowest act accepted stands**, and behind the last none is accepted. -/
theorem AtRest.lowest (h : F.AtRest S log) (ha : a ∈ S) (hle : F.place a ≤ log.length)
    (haccepts : F.accepts (log.take (F.place a)) a = true) :
    ∃ there, log[F.place a]? = some there ∧ F.key there ≤ F.key a :=
  key_le_of_offer (h.rest a ha) hle haccepts

/-- The act at a place of one log at rest stands there in another that is the same before. -/
theorem AtRest.getElem?_eq (h : F.AtRest S log) (h' : F.AtRest S log')
    (hkey : Set.InjOn F.key S) {i : ℕ} (htake : log'.take i = log.take i)
    (ha : log[i]? = some a) : log'[i]? = some a := by
  obtain ⟨hmem, hplace, haccepts⟩ := h.lawful i a ha
  subst hplace
  have hlt := (List.getElem?_eq_some_iff.1 ha).1
  have hle' : F.place a ≤ log'.length := by
    have hlen := congrArg List.length htake
    rw [List.length_take, List.length_take] at hlen
    omega
  obtain ⟨b, hb, hba⟩ := h'.lowest hmem hle' (htake ▸ haccepts)
  obtain ⟨hmem', hplace', haccepts'⟩ := h'.lawful _ b hb
  rw [← hplace'] at htake hlt ha
  obtain ⟨c, hc, hcb⟩ := h.lowest hmem' hlt.le (htake ▸ hplace' ▸ haccepts')
  obtain rfl := Option.some.inj (ha.symm.trans hc)
  rw [hb, hkey hmem hmem' (Nat.le_antisymm hcb hba)]

/-- **Two logs at rest are one.** -/
theorem AtRest.unique (h : F.AtRest S log) (h' : F.AtRest S log')
    (hkey : Set.InjOn F.key S) : log = log' := by
  have htake : ∀ i, log'.take i = log.take i := by
    intro i
    induction i with
    | zero => rw [List.take_zero, List.take_zero]
    | succ i ih =>
      rw [List.take_add_one, List.take_add_one, ih]
      congr 2
      cases hx : log[i]? with
      | some a => exact h.getElem?_eq h' hkey ih hx
      | none =>
        cases hx' : log'[i]? with
        | none => rfl
        | some b =>
          have hb := h'.getElem?_eq h hkey ih.symm hx'
          rw [hx] at hb
          cases hb
  have hall := htake (max log.length log'.length)
  rw [List.take_of_length_le (le_max_right _ _), List.take_of_length_le (le_max_left _ _)] at hall
  exact hall.symm

end Forks
end Lib
end Fuzznet
