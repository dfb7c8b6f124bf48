/-
# Removed rows and the operation journal

A process started on a settled disk leaves a settled disk unless it stops right behind the
bytes it keeps, in front of their entry (`step_fit`), and removing a row finds every copy
of it through the entries and erases it (`ojRemove_gone`).  A row that is gone from a disk
with all its copies stays gone unless it is saved.  Hence a removed row leaves nothing in
every run without such a stop (`removed_leaves_nothing`).  In a run with one it may
(`stopped_leaves_copy`): nothing names the copy then, so nothing erases it.
-/

import Fuzznet.Node.OpWays

namespace Fuzznet
namespace Node
namespace OpJournal

open Wire (Bytes Bytes32)
open Persist (PersistSlot)

variable {gone : Row → Prop}

namespace Host

variable {h h' : Host} {row : Row}

/-! ## Starting -/

theorem openHeld_goes (gs : List ℕ) (hs : Sane gone h)
    (hgs : ∀ g ∈ gs, 0 < g ∧ h.oj.first ≤ g ∧ g ≤ h.oj.last) : Goes gone h (openHeld gs h).2 := by
  induction gs generalizing h with
  | nil => exact hs.refl
  | cons g gs ih =>
    obtain ⟨hpos, hfirst, hlast⟩ := hgs g (List.mem_cons_self ..)
    rw [openHeld]
    split_ifs
    · exact (asked_moves h).goes hs
    have hcreate : Goes gone h (h.asked.perform (.create g)) := by
      refine ⟨Runs.write (h := h.asked) (hs.standing.create hpos), fun g' es hes => ?_,
        hs.spans.ordered, hs.spans.zero⟩
      rw [perform, Lib.Lasting.write, lookup_create] at hes
      split_ifs at hes with heq
      · rw [heq]
        exact ⟨hfirst, hlast⟩
      · exact hs.spans.within g' es hes
    exact hcreate.trans (ih hcreate.sane fun g' hg' => hgs g' (List.mem_cons_of_mem g hg'))

theorem startOpened_goes (hs : Sane gone h) : Goes gone h h.startOpened.2 := by
  unfold startOpened
  extract_lets openedAt h₁ h₂ held
  have hopened : Goes gone h h₁ := Moves.goes (.of_eq rfl rfl rfl) hs
  have hdrop : Goes gone h h₂ := hopened.trans (dropPast_goes _ hopened.sane)
  split
  next => exact hdrop
  next kept g seq _ =>
    have hset : Moves gone h₂
        { h₂ with oj := { h₂.oj with kept := kept, oldestGeneration := g, oldest := seq } } :=
      .of_eq rfl rfl rfl
    exact hdrop.trans ((hset.trans (retain_moves _)).goes hdrop.sane)

/-- **Starting** leaves what stands standing. -/
theorem start_goes (hs : Sane gone h) : Goes gone h h.start.2 := by
  have hheld : ∀ g ∈ if h.oj.first = 0 then [] else h.generations,
      0 < g ∧ h.oj.first ≤ g ∧ g ≤ h.oj.last := by
    intro g hg
    split_ifs at hg with hnone
    · cases hg
    · rw [generations, List.mem_range'_1] at hg
      omega
  have hopen := openHeld_goes _ hs hheld
  rw [start]
  by_cases hno : h.oj.keep = 0 ∨ generationsMax ≤ h.oj.keep ∨
      (h.oj.last ≠ 0 ∧ generationsMax ≤ h.oj.last - h.oj.first)
  · rw [if_pos hno]
    exact hs.refl
  rw [if_neg hno]
  split <;> rename_i h₁ heq <;> rw [heq] at hopen
  · exact hopen
  extract_lets h₂
  have hdrop : Goes gone h h₂ := by
    unfold h₂
    split_ifs
    · exact hopen.trans (dropGeneration_goes hopen.sane _)
    · exact hopen
  split_ifs with hempty
  · have hone := hdrop.trans (openGeneration_goes hdrop.sane (by rw [hempty]))
    split <;> rename_i h₃ hopened <;> rw [hopened] at hone
    · exact hone
    · exact hone.trans (startOpened_goes hone.sane)
  · exact hdrop.trans (startOpened_goes hdrop.sane)

/-! ## Saving and removing -/

theorem save_goes (hs : Sane gone h) (hrow : ¬ gone row) (bytes : Bytes) :
    Goes gone h (h.asked.perform (.save row bytes)) :=
  ⟨Runs.write (h := h.asked) (hs.standing.save hrow bytes), hs.spans.within, hs.spans.ordered,
    hs.spans.zero⟩

/-- **Saving a row** that is not gone leaves what stands standing. -/
theorem ojSave_goes (hs : Sane gone h) (hrow : ¬ gone row) (bytes : Bytes) :
    Goes gone h (h.ojSave row bytes).2 := by
  rw [ojSave]
  by_cases hrefused : h.refused = true
  · rw [if_pos hrefused]
    exact (asked_moves h).goes hs
  rw [if_neg hrefused]
  have hsave := save_goes hs hrow bytes
  extract_lets h₁ kept h₂
  have henter : Moves gone h₁ h₂ := enter_moves fun b _ => ⟨rfl, rfl, fun _ => hrow⟩
  have hentered := hsave.trans (henter.goes hsave.sane)
  have hrotated := hentered.trans (rotate_goes hentered.sane)
  exact hrotated.trans ((retain_moves _).goes hrotated.sane)

theorem eraseRow_erases (h : Host) (row : Row) : Erases gone h (h.eraseRow row) := by
  rw [eraseRow]
  split_ifs
  · exact .refl h
  · exact Lib.foldl_rel .refl (fun _ _ _ => .trans) (fun h g => eraseEntries_erases h g _) _ _

/-- **Every copy of a row is found through its entry** and erased. -/
theorem eraseRow_gone (hs : Sane gone h) (hkeeps : keeps row.slot = true)
    (habsent : h.disk.rows.lookup row = none) : Gone row (h.eraseRow row).disk := by
  have herase : Erases gone h (h.eraseRow row) := eraseRow_erases h row
  refine ⟨Option.eq_none_iff_forall_ne_some.2 fun c hc => ?_, fun k c hc hwhose => ?_⟩
  · have hc' := herase.rows row c hc
    rw [habsent] at hc'
    cases hc'
  obtain ⟨g, seq, es, e, rfl, hes, he, hop, hkept, hrow, hlen⟩ :=
    hs.standing.settled.named k c (herase.rows _ c hc) (hwhose ▸ hkeeps)
  have hpos := hs.standing.settled.positive g es hes
  obtain ⟨hfirst, hlast⟩ := hs.spans.within g es hes
  have hnonempty : ¬ h.oj.first = 0 := fun hnone => by
    have := hs.spans.zero hnone
    omega
  have hmem : g ∈ h.generations := by
    rw [generations, List.mem_range'_1]
    omega
  obtain ⟨h₁, hto, hfrom⟩ := Lib.foldl_at (R := Erases gone) .refl (fun _ _ _ => .trans)
    (fun h g => eraseEntries_erases h g fun e => e.op = .save ∧ e.row = row) hmem h
  rw [eraseRow, if_neg hnonempty] at hc
  have hes₁ : h₁.journalOf g = some es := (hto.journalOf g).trans (hs.journalOf hes)
  refine eraseEntries_erased hes₁ he ?_ hop hkept hlen (hfrom.rows _ c hc)
  exact decide_eq_true ⟨hop, hrow.trans hwhose⟩

/-- What is done behind the erasing. -/
theorem removed_goes (hs : Sane gone h) (row : Row) :
    Goes gone h (h.enter h.oj.last ⟨.remove, row, false, 0, 0⟩ none).2.rotate := by
  have henter : Moves gone h (h.enter h.oj.last ⟨.remove, row, false, 0, 0⟩ none).2 :=
    enter_moves fun b hb => absurd hb (Option.not_mem_none b)
  have hentered := henter.goes hs
  exact hentered.trans (rotate_goes hentered.sane)

/-- **Removing a row** leaves what stands standing. -/
theorem ojRemove_goes (hs : Sane gone h) (row : Row) : Goes gone h (h.ojRemove row).2 := by
  have hremove : Goes gone h (h.asked.perform (.remove row)) :=
    ((asked_moves h).trans (remove_erases h.asked row).moves).goes hs
  rw [ojRemove]
  split_ifs
  · exact (asked_moves h).goes hs
  · have herase := hremove.trans ((eraseRow_erases _ row).moves.goes hremove.sane)
    exact herase.trans (removed_goes herase.sane row)
  · exact hremove.trans (removed_goes hremove.sane row)

/-- **Removing a row that keeps its bytes** leaves no copy of it. -/
theorem ojRemove_gone (hs : Sane gone h) (hkeeps : keeps row.slot = true)
    (hok : (h.ojRemove row).1 = true) : Sane (· = row) (h.ojRemove row).2 := by
  have hremove : Goes gone h (h.asked.perform (.remove row)) :=
    ((asked_moves h).trans (remove_erases h.asked row).moves).goes hs
  have herase := hremove.trans ((eraseRow_erases _ row).moves.goes hremove.sane)
  have hgone : Gone row ((h.asked.perform (.remove row)).eraseRow row).disk :=
    eraseRow_gone hremove.sane hkeeps (AList.lookup_erase row _)
  have hsane : Sane (· = row) ((h.asked.perform (.remove row)).eraseRow row) :=
    ⟨⟨herase.sane.standing.settled, fun row' heq _ => heq ▸ hgone⟩, herase.spans⟩
  rw [ojRemove] at hok ⊢
  split_ifs at hok ⊢
  exact (removed_goes hsane row).sane

end Host

/-! ## Steps -/

/-- A world's disk stands, and the journal open knows its generations. -/
structure Fit (gone : Row → Prop) (w : World) : Prop where
  standing : Standing gone w.disk
  spans : ∀ oj ∈ w.oj, Host.Spans oj.first oj.last w.disk

/-- The process stops right behind the bytes it keeps, in front of their entry. -/
def torn (w : World) (e : Event) : Bool :=
  match e.left, serve w e with
  | some n, some (_, _, h) =>
    match h.left n with
    | some (some (.keep ..), _) => true
    | _ => false
  | _, _ => false

theorem generationsHeld_spans {d : Disk} {first last : ℕ} (hsettled : Settled d)
    (hheld : generationsHeld d = some (first, last)) : Host.Spans first last d := by
  unfold generationsHeld at hheld
  extract_lets gs first' last' at hheld
  split_ifs at hheld
  obtain ⟨rfl, rfl⟩ := Prod.mk.inj (Option.some.inj hheld)
  have hmem : ∀ g es, d.journals.lookup g = some es → g ∈ gs := fun g es hes =>
    List.mem_filter.2 ⟨AList.mem_keys.1 (AList.lookup_isSome.1 (by rw [hes]; rfl)),
      decide_eq_true (hsettled.positive g es hes)⟩
  have hpos : ∀ g ∈ gs, 0 < g := fun g hg => of_decide_eq_true (List.mem_filter.1 hg).2
  by_cases hnone : gs = []
  · refine ⟨fun g es hes => ?_, ?_, fun _ => ?_⟩
    · have hg := hmem g es hes
      rw [hnone] at hg
      cases hg
    · unfold first' last'
      rw [hnone]
      exact le_rfl
    · unfold last'
      rw [hnone]
      rfl
  obtain ⟨a, ha⟩ := Option.isSome_iff_exists.1 (List.isSome_min?_iff.2 hnone)
  obtain ⟨b, hb⟩ := Option.isSome_iff_exists.1 (List.isSome_max?_iff.2 hnone)
  have hfirst : first' = a := by
    unfold first'
    rw [ha, Option.getD_some]
  have hlast : last' = b := by
    unfold last'
    rw [hb, Option.getD_some]
  obtain ⟨hmem_a, hle⟩ := List.min?_eq_some_iff.1 ha
  obtain ⟨-, hge⟩ := List.max?_eq_some_iff.1 hb
  rw [hfirst, hlast]
  refine ⟨fun g es hes => ⟨hle g (hmem g es hes), hge g (hmem g es hes)⟩, hge a hmem_a,
    fun hzero => ?_⟩
  exact absurd hzero (Nat.ne_of_gt (hpos a hmem_a))

/-- **A call made to its end** leaves what stands standing, but behind bytes kept in front of
their entry. -/
theorem serve_goes {w : World} {e : Event} {ok live : Bool} {h : Host} (hw : Fit gone w)
    (hsave : ∀ row bytes, e.call = .save row bytes → ¬ gone row)
    (hserve : serve w e = some (ok, live, h)) :
    Lib.Lasting.Passes Write.Opens (Standing gone) (.begin w.disk) h.toLasting ∧
      Host.Spans h.oj.first h.oj.last h.disk := by
  unfold serve at hserve
  split at hserve
  next c hcall =>
    obtain ⟨⟨first, last⟩, hheld, heq⟩ := Option.map_eq_some_iff.1 hserve
    obtain rfl : (Host.start ⟨.begin w.disk, ⟨c, first, last, 0, 0, 0, 0, 0, 0, 0, 0⟩,
        e.refusals⟩).2 = h := congrArg (fun answer => answer.2.2) heq
    have hs : Host.Sane gone ⟨.begin w.disk, ⟨c, first, last, 0, 0, 0, 0, 0, 0, 0, 0⟩, e.refusals⟩ :=
      ⟨hw.standing, generationsHeld_spans hw.standing.settled hheld⟩
    exact ⟨(Host.start_goes hs).runs, (Host.start_goes hs).spans⟩
  next row bytes hcall =>
    obtain ⟨oj, hoj, heq⟩ := Option.map_eq_some_iff.1 hserve
    obtain ⟨-, -, rfl⟩ : _ ∧ _ ∧ _ = h := by simpa using heq
    have hs : Host.Sane gone ⟨.begin w.disk, oj, e.refusals⟩ := ⟨hw.standing, hw.spans oj hoj⟩
    have hgoes := Host.ojSave_goes hs (hsave row bytes hcall) bytes
    exact ⟨hgoes.runs, hgoes.spans⟩
  next row hcall =>
    obtain ⟨oj, hoj, heq⟩ := Option.map_eq_some_iff.1 hserve
    obtain ⟨-, -, rfl⟩ : _ ∧ _ ∧ _ = h := by simpa using heq
    have hs : Host.Sane gone ⟨.begin w.disk, oj, e.refusals⟩ := ⟨hw.standing, hw.spans oj hoj⟩
    exact ⟨(Host.ojRemove_goes hs row).runs, (Host.ojRemove_goes hs row).spans⟩

/-- **One step**, of a process that does not stop between bytes and their entry. -/
theorem step_fit {w : World} {e : Event} (hw : Fit gone w) (htorn : torn w e = false)
    (hsave : ∀ row bytes, e.call = .save row bytes → ¬ gone row) : Fit gone (step w e) := by
  unfold step
  split
  next => exact ⟨hw.standing, fun oj hoj => absurd hoj (Option.not_mem_none oj)⟩
  next ok live h hserve =>
    obtain ⟨hruns, hspans⟩ := serve_goes hw hsave hserve
    split
    next hleft =>
      refine ⟨hruns.disk, fun oj hoj => ?_⟩
      rw [Option.mem_def] at hoj
      split_ifs at hoj
      rw [← Option.some.inj hoj]
      exact hspans
    next n hleft =>
      refine ⟨?_, fun oj hoj => absurd hoj (Option.not_mem_none oj)⟩
      rcases hl : h.left n with _ | ⟨v, d⟩
      · exact hw.standing
      · refine hruns.of_left hw.standing hl fun v' hv' hopens => ?_
        obtain rfl := Option.mem_def.1 hv'
        cases v' <;> first | exact hopens.elim | skip
        simp [torn, hleft, hserve, hl] at htorn

/-- **A row removed**, by a process that answered. -/
theorem step_gone {w : World} {e : Event} {row : Row} (hw : Fit (fun _ => False) w)
    (hcall : e.call = .remove row) (hkeeps : keeps row.slot = true)
    (hok : (step w e).returned = some true) : Fit (· = row) (step w e) := by
  rcases hserve : serve w e with _ | ⟨ok, live, h⟩
  · rw [step, hserve] at hok
    cases hok
  rcases hleft : e.left with _ | n
  · rw [step, hserve, hleft] at hok ⊢
    obtain rfl : ok = true := Option.some.inj hok
    rw [serve, hcall] at hserve
    obtain ⟨oj, hoj, heq⟩ := Option.map_eq_some_iff.1 hserve
    obtain ⟨hanswer, rfl, rfl⟩ : _ = true ∧ true = live ∧ _ = h := by simpa using heq
    have hs : Host.Sane (fun _ => False) ⟨.begin w.disk, oj, e.refusals⟩ :=
      ⟨hw.standing, hw.spans oj hoj⟩
    have hgone := Host.ojRemove_gone hs hkeeps hanswer
    refine ⟨hgone.standing, fun oj' hoj' => ?_⟩
    obtain rfl := Option.some.inj hoj'
    exact hgone.spans
  · rw [step, hserve, hleft] at hok
    cases hok

/-! ## Runs -/

/-- A store no journal was kept in. -/
structure New (d : Disk) : Prop where
  journals : ∀ g, d.journals.lookup g = none
  copies : ∀ k, d.rows.lookup (copyRow k) = none

/-- What a run of calls on a disk comes to, from no process. -/
def run (d : Disk) (events : List Event) : World := events.foldl step ⟨d, none, none⟩

/-- No process of the run stops between bytes and their entry. -/
def Whole (d : Disk) (events : List Event) : Prop :=
  ∀ pre e, pre ++ [e] <+: events → torn (run d pre) e = false

theorem New.fit {d : Disk} (hd : New d) : Fit (fun _ => False) ⟨d, none, none⟩ := by
  refine ⟨⟨⟨fun g es hes => ?_, fun k c hc _ => ?_⟩, fun row hgone => hgone.elim⟩, fun oj hoj => ?_⟩
  · rw [hd.journals g] at hes
    cases hes
  · rw [hd.copies k] at hc
    cases hc
  · cases hoj

theorem run_fit {w : World} {events : List Event} (hw : Fit gone w)
    (htorn : ∀ pre e, pre ++ [e] <+: events → torn (pre.foldl step w) e = false)
    (hsave : ∀ e ∈ events, ∀ row bytes, e.call = .save row bytes → ¬ gone row) :
    Fit gone (events.foldl step w) := by
  refine Lib.foldl_induction (fun pre e hle hpre => ?_) hw
  have hmem : e ∈ events := hle.subset (List.mem_append_right pre (List.mem_singleton_self e))
  exact step_fit hpre (htorn pre e hle) (hsave e hmem)

/-- **A removed row leaves nothing** where the journal keeps its bytes, and nothing of it
comes back, until it is saved again. -/
theorem removed_leaves_nothing {d : Disk} (hd : New d) {before after : List Event} {e : Event}
    {row : Row} (hkeeps : keeps row.slot = true) (hwhole : Whole d (before ++ e :: after))
    (hcall : e.call = .remove row) (hok : (run d (before ++ [e])).returned = some true)
    (hsaved : ∀ e' ∈ after, ∀ bytes, e'.call ≠ .save row bytes) :
    ∀ k c, (run d (before ++ e :: after)).disk.rows.lookup (copyRow k) = some c →
      c.whose ≠ row := by
  have hbefore : Fit (fun _ => False) (run d before) :=
    run_fit hd.fit (fun pre e' hle => hwhole pre e' (hle.trans (List.prefix_append ..)))
      fun _ _ _ _ _ => not_false
  rw [run, List.foldl_append] at hok ⊢
  have hgone : Fit (· = row) (step (run d before) e) := step_gone hbefore hcall hkeeps hok
  refine (Fit.standing (run_fit hgone (fun pre e' hle => ?_) ?_)).gone row rfl hkeeps |>.copies
  · have hpre := hwhole (before ++ e :: pre) e' (by simpa using hle)
    rwa [run, List.foldl_append] at hpre
  · rintro e' he' row' bytes hsave rfl
    exact hsaved e' he' bytes hsave

/-- **Every copy is named** at the end of every run of whole calls, by an entry of a generation
that an open journal spans. -/
theorem copies_named {d : Disk} (hd : New d) {events : List Event} (hwhole : Whole d events)
    (k : Option Bytes32) (c : Copy) :
    (run d events).disk.rows.lookup (copyRow k) = some c → keeps c.whose.slot = true →
      ∃ g, 0 < g ∧ Named (run d events).disk k c g ∧
        ∀ oj ∈ (run d events).oj, oj.first ≤ g ∧ g ≤ oj.last := by
  intro hc hkeeps
  have hfit : Fit (fun _ => False) (run d events) :=
    run_fit hd.fit hwhole fun _ _ _ _ _ => not_false
  obtain ⟨g, seq, es, e, hk, hes, he⟩ := hfit.standing.settled.named k c hc hkeeps
  exact ⟨g, hfit.standing.settled.positive g es hes, ⟨seq, es, e, hk, hes, he⟩,
    fun oj hoj => (hfit.spans oj hoj).within g es hes⟩

/-- A journal of two generations at most, started. -/
def starting : Event := ⟨.start ⟨2, 0, 0, fun _ => some 5⟩, [], none⟩

/-- A row of a slot that keeps its bytes. -/
def noteRow : Row := ⟨PersistSlot.note.number, some 7⟩

/-- The row saved, by a process that stops as many writes from the end of it. -/
def stopping (left : ℕ) : List Event :=
  [starting, ⟨.save noteRow [1, 2, 3], [], some left⟩, starting]

/-- The row removed. -/
def removing : Event := ⟨.remove noteRow, [], none⟩

theorem new_empty : New ⟨∅, ∅⟩ := ⟨fun _ => AList.lookup_empty _, fun _ => AList.lookup_empty _⟩

theorem removed_leaves_nothing_note :
    (run ⟨∅, ∅⟩ (stopping 0 ++ [removing])).returned = some true ∧
      ∀ k c, (run ⟨∅, ∅⟩ (stopping 0 ++ [removing, starting])).disk.rows.lookup (copyRow k) =
        some c → c.whose ≠ noteRow := by
  have hremoved : (run ⟨∅, ∅⟩ (stopping 0 ++ [removing])).returned = some true := by
    decide +kernel
  refine ⟨hremoved, @removed_leaves_nothing ⟨∅, ∅⟩ new_empty (stopping 0) [starting] removing
    noteRow (by decide) ?_ rfl hremoved (by simp [starting])⟩
  have hwhole : ∀ n : Fin 5, torn (run ⟨∅, ∅⟩ ((stopping 0 ++ [removing, starting]).take n))
      ((stopping 0 ++ [removing, starting])[n]) = false := by decide +kernel
  exact Lib.forall_prefix fun n hn => hwhole ⟨n, hn⟩

/-- The hypotheses are met: the copy of a row saved. -/
theorem copies_named_note : ∃ g, 0 < g ∧
    Named (run ⟨∅, ∅⟩ (stopping 0)).disk (some (bytesKey 1 2)) ⟨noteRow, [1, 2, 3]⟩ g ∧
      ∀ oj ∈ (run ⟨∅, ∅⟩ (stopping 0)).oj, oj.first ≤ g ∧ g ≤ oj.last := by
  have hwhole : ∀ n : Fin 3, torn (run ⟨∅, ∅⟩ ((stopping 0).take n)) ((stopping 0)[n]) = false := by
    decide +kernel
  exact @copies_named ⟨∅, ∅⟩ new_empty (stopping 0) (Lib.forall_prefix fun n hn => hwhole ⟨n, hn⟩)
    _ _ (by decide +kernel) (by decide)

/-- **A process that stops right behind the bytes it keeps** leaves them where no removal
finds them. -/
theorem stopped_leaves_copy :
    ¬ ∀ (d : Disk) (before after : List Event) (e : Event) (row : Row), New d →
      keeps row.slot = true → e.call = .remove row →
      (run d (before ++ [e])).returned = some true →
      (∀ e' ∈ after, ∀ bytes, e'.call ≠ .save row bytes) →
      ∀ k c, (run d (before ++ e :: after)).disk.rows.lookup (copyRow k) = some c →
        c.whose ≠ row := by
  intro hall
  refine hall ⟨∅, ∅⟩ (stopping 1) [] removing noteRow new_empty (by decide) rfl
    (by decide +kernel) (fun _ hmem => absurd hmem List.not_mem_nil)
    (some (bytesKey 1 2)) ⟨noteRow, [1, 2, 3]⟩ ?_ rfl
  decide +kernel

end OpJournal
end Node
end Fuzznet
