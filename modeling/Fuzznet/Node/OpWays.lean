/-
# What the operation journal leaves on its disk

Bytes the journal keeps are found through their entry.  So a disk is `Settled` when every
copy of a row that keeps its bytes stands at the place of an entry for that row.  Every
write of a process leaves a settled disk settled but one: bytes are kept in front of their
entry, and in between a copy stands that no entry names.

A disk is `Standing` when it is settled and some rows are gone from it, with every copy of
them.  Each way of a process between two of its states leaves a standing disk standing
behind every write it makes but a `keep` (`Moves`), and the process knows the generations
there are (`Goes`).
-/

import Fuzznet.Lib.Runs
import Fuzznet.Node.OpJournal

namespace Fuzznet
namespace Node
namespace OpJournal

open Wire (Bytes Bytes32)
open Persist (PersistSlot)

/-! ## Disks -/

/-- A row the journal keeps bytes in. -/
abbrev copyRow (subject : Option Bytes32) : Row := ⟨PersistSlot.opBytes.number, subject⟩

/-- A copy stands at the place of an entry of generation `g` that kept it. -/
def Named (d : Disk) (subject : Option Bytes32) (c : Copy) (g : ℕ) : Prop :=
  ∃ seq es e, subject = some (bytesKey g (seq + 1)) ∧ d.journals.lookup g = some es ∧
    es[seq]? = some e ∧ e.op = .save ∧ e.bytesKept = true ∧ e.row = c.whose ∧
      c.bytes.length ≤ bytesMax

/-- Every copy of a row that keeps its bytes is named. -/
structure Settled (d : Disk) : Prop where
  positive : ∀ g es, d.journals.lookup g = some es → 0 < g
  named : ∀ k c, d.rows.lookup (copyRow k) = some c → keeps c.whose.slot = true →
    ∃ g, Named d k c g

/-- Neither the row nor a copy of it is there. -/
structure Gone (row : Row) (d : Disk) : Prop where
  absent : d.rows.lookup row = none
  copies : ∀ k c, d.rows.lookup (copyRow k) = some c → c.whose ≠ row

/-- A settled disk that some rows are gone from. -/
structure Standing (gone : Row → Prop) (d : Disk) : Prop where
  settled : Settled d
  gone : ∀ row, gone row → keeps row.slot = true → Gone row d

variable {gone : Row → Prop} {d d' : Disk}

theorem not_keeps_opBytes : ¬ keeps PersistSlot.opBytes.number = true := by decide

/-- Rows may be taken out. -/
theorem Standing.shrink (h : Standing gone d) (hjournals : d'.journals = d.journals)
    (hrows : ∀ r c, d'.rows.lookup r = some c → d.rows.lookup r = some c) : Standing gone d' := by
  refine ⟨⟨?_, fun k c hc hkeeps => ?_⟩, fun row hgone hkeeps => ⟨?_, fun k c hc => ?_⟩⟩
  · rw [hjournals]
    exact h.settled.positive
  · obtain ⟨g, seq, es, e, hk, hes, hrest⟩ := h.settled.named k c (hrows _ c hc) hkeeps
    exact ⟨g, seq, es, e, hk, hjournals ▸ hes, hrest⟩
  · refine Option.eq_none_iff_forall_ne_some.2 fun c hc => ?_
    have hc' := hrows row c hc
    rw [(h.gone row hgone hkeeps).absent] at hc'
    cases hc'
  · exact (h.gone row hgone hkeeps).copies k c (hrows _ c hc)

/-- Journals may grow. -/
theorem Standing.grow (h : Standing gone d) (hrows : d'.rows = d.rows)
    (hpositive : ∀ g es, d'.journals.lookup g = some es → 0 < g)
    (hjournals : ∀ g es, d.journals.lookup g = some es →
      ∃ more, d'.journals.lookup g = some (es ++ more)) : Standing gone d' := by
  refine ⟨⟨hpositive, fun k c hc hkeeps => ?_⟩, fun row hgone hkeeps => ⟨?_, ?_⟩⟩
  · obtain ⟨g, seq, es, e, hk, hes, he, hrest⟩ :=
      h.settled.named k c (hrows ▸ hc) hkeeps
    obtain ⟨more, hmore⟩ := hjournals g es hes
    refine ⟨g, seq, es ++ more, e, hk, hmore, ?_, hrest⟩
    rw [List.getElem?_append_left (List.getElem?_eq_some_iff.1 he).1, he]
  · rw [hrows]
    exact (h.gone row hgone hkeeps).absent
  · rw [hrows]
    exact (h.gone row hgone hkeeps).copies

theorem Standing.save (h : Standing gone d) {row : Row} (hrow : ¬ gone row) (bytes : Bytes) :
    Standing gone (d.apply (.save row bytes)) := by
  refine ⟨⟨h.settled.positive, fun k c hc hkeeps => ?_⟩,
    fun row' hgone hkeeps => ⟨?_, fun k c hc => ?_⟩⟩
  · by_cases hk : copyRow k = row
    · rw [← hk, Disk.apply, AList.lookup_insert] at hc
      obtain rfl := Option.some.inj hc
      exact absurd hkeeps not_keeps_opBytes
    · rw [Disk.apply, AList.lookup_insert_ne hk] at hc
      exact h.settled.named k c hc hkeeps
  · rw [Disk.apply, AList.lookup_insert_ne (by rintro rfl; exact hrow hgone)]
    exact (h.gone row' hgone hkeeps).absent
  · by_cases hk : copyRow k = row
    · rw [← hk, Disk.apply, AList.lookup_insert] at hc
      obtain rfl := Option.some.inj hc
      rintro rfl
      exact not_keeps_opBytes hkeeps
    · rw [Disk.apply, AList.lookup_insert_ne hk] at hc
      exact (h.gone row' hgone hkeeps).copies k c hc

theorem Standing.remove (h : Standing gone d) (row : Row) :
    Standing gone (d.apply (.remove row)) := by
  refine h.shrink rfl fun r c hc => ?_
  by_cases hr : r = row
  · rw [hr, Disk.apply, AList.lookup_erase] at hc
    cases hc
  · rwa [Disk.apply, AList.lookup_erase_ne hr] at hc

theorem lookup_create (d : Disk) (g g' : ℕ) :
    (d.apply (.create g)).journals.lookup g' =
      if g' = g then some ((d.journals.lookup g).getD []) else d.journals.lookup g' := by
  by_cases hg : g' = g
  · rw [hg, Disk.apply, AList.lookup_insert, if_pos rfl]
  · rw [Disk.apply, AList.lookup_insert_ne hg, if_neg hg]

variable {es : List Entry} {g : ℕ}

theorem lookup_append (hes : d.journals.lookup g = some es) (e : Entry) (g' : ℕ) :
    (d.apply (.append g e)).journals.lookup g' =
      if g' = g then some (es ++ [e]) else d.journals.lookup g' := by
  by_cases hg : g' = g
  · rw [hg, Disk.apply, AList.lookup_insert, if_pos rfl, hes, Option.getD_some]
  · rw [Disk.apply, AList.lookup_insert_ne hg, if_neg hg]

theorem Standing.create (h : Standing gone d) (hg : 0 < g) :
    Standing gone (d.apply (.create g)) := by
  refine h.grow rfl (fun g' es hes => ?_) fun g' es hes => ⟨[], ?_⟩
  · rw [lookup_create] at hes
    split_ifs at hes with heq
    · rwa [heq]
    · exact h.settled.positive g' es hes
  · rw [lookup_create, List.append_nil]
    split_ifs with heq
    · rw [← heq, hes, Option.getD_some]
    · exact hes

theorem Standing.append (h : Standing gone d) (hes : d.journals.lookup g = some es) (e : Entry) :
    Standing gone (d.apply (.append g e)) := by
  refine h.grow rfl (fun g' es' hes' => ?_) fun g' es' hes' => ?_
  · rw [lookup_append hes] at hes'
    split_ifs at hes' with heq
    · rw [heq]
      exact h.settled.positive g es hes
    · exact h.settled.positive g' es' hes'
  · rw [lookup_append hes]
    split_ifs with heq
    · rw [heq, hes] at hes'
      exact ⟨[e], by rw [Option.some.inj hes']⟩
    · exact ⟨[], by rw [hes', List.append_nil]⟩

/-- **Bytes kept and then entered are named.** -/
theorem Standing.keep_append (h : Standing gone d) (hes : d.journals.lookup g = some es) {e : Entry}
    (hop : e.op = .save) (hkept : e.bytesKept = true) (hrow : ¬ gone e.row) {bytes : Bytes}
    (hlen : bytes.length ≤ bytesMax) :
    Standing gone ((d.apply (.keep g (es.length + 1) e.row bytes)).apply (.append g e)) := by
  have hgrown := h.append hes e
  refine ⟨⟨hgrown.settled.positive, fun k c hc hkeeps => ?_⟩,
    fun row hgone hkeeps => ⟨?_, fun k c hc => ?_⟩⟩
  · by_cases hk : copyRow k = keptRow g (es.length + 1)
    · rw [hk, Disk.apply, Disk.apply, AList.lookup_insert] at hc
      obtain rfl := Option.some.inj hc
      obtain rfl : k = _ := (Row.mk.inj hk).2
      refine ⟨g, es.length, es ++ [e], e, rfl, ?_, List.getElem?_concat_length, hop, hkept, rfl,
        hlen⟩
      exact (lookup_append hes e g).trans (if_pos rfl)
    · rw [Disk.apply, Disk.apply, AList.lookup_insert_ne hk] at hc
      exact hgrown.settled.named k c hc hkeeps
  · have hne : row ≠ keptRow g (es.length + 1) := by
      rintro rfl
      exact not_keeps_opBytes hkeeps
    rw [Disk.apply, Disk.apply, AList.lookup_insert_ne hne]
    exact (h.gone row hgone hkeeps).absent
  · by_cases hk : copyRow k = keptRow g (es.length + 1)
    · rw [hk, Disk.apply, Disk.apply, AList.lookup_insert] at hc
      obtain rfl := Option.some.inj hc
      rintro rfl
      exact hrow hgone
    · rw [Disk.apply, Disk.apply, AList.lookup_insert_ne hk] at hc
      exact (h.gone row hgone hkeeps).copies k c hc

/-- Bytes kept and taken back out are as never kept. -/
theorem Standing.keep_remove (h : Standing gone d) (g seq : ℕ) (whose : Row) (bytes : Bytes) :
    Standing gone ((d.apply (.keep g seq whose bytes)).apply (.remove (keptRow g seq))) := by
  refine h.shrink rfl fun r c hc => ?_
  by_cases hr : r = keptRow g seq
  · rw [hr, Disk.apply, Disk.apply, AList.lookup_erase] at hc
    cases hc
  · rwa [Disk.apply, Disk.apply, AList.lookup_erase_ne hr, AList.lookup_insert_ne hr] at hc

/-- A generation may go that names no copy. -/
theorem Standing.drop (h : Standing gone d)
    (hg : ∀ k c, d.rows.lookup (copyRow k) = some c → ¬ Named d k c g) :
    Standing gone (d.apply (.drop g)) := by
  refine ⟨⟨fun g' es hes => ?_, fun k c hc hkeeps => ?_⟩, fun row hgone hkeeps => ?_⟩
  · by_cases heq : g' = g
    · rw [heq, Disk.apply, AList.lookup_erase] at hes
      cases hes
    · rw [Disk.apply, AList.lookup_erase_ne heq] at hes
      exact h.settled.positive g' es hes
  · obtain ⟨g', hnamed⟩ := h.settled.named k c hc hkeeps
    have hne : g' ≠ g := by
      rintro rfl
      exact hg k c hc hnamed
    obtain ⟨seq, es, e, hk, hes, hrest⟩ := hnamed
    exact ⟨g', seq, es, e, hk, (AList.lookup_erase_ne hne).trans hes, hrest⟩
  · exact ⟨(h.gone row hgone hkeeps).absent, (h.gone row hgone hkeeps).copies⟩

/-! ## What a process leaves -/

/-- A write that opens what the next one closes. -/
def Write.Opens : Write → Prop
  | .keep .. => True
  | _ => False

namespace Host

variable {h h' h'' : Host} {g seq : ℕ} {e : Entry}

/-- What a process writes on the way leaves the disk standing. -/
abbrev Runs (gone : Row → Prop) (h h' : Host) : Prop :=
  Lib.Lasting.Passes Write.Opens (Standing gone) h.toLasting h'.toLasting

theorem Runs.write {w : Write} (hw : Standing gone (h.disk.apply w)) : Runs gone h (h.perform w) :=
  Lib.Lasting.Passes.write hw

/-- The span of the journal stays, and no generation comes. -/
structure Stays (h h' : Host) : Prop where
  first : h'.oj.first = h.oj.first
  last : h'.oj.last = h.oj.last
  journals : ∀ g es, h'.disk.journals.lookup g = some es →
    ∃ es', h.disk.journals.lookup g = some es'

/-- A way between two states of a process that leaves what stands standing. -/
structure Moves (gone : Row → Prop) (h h' : Host) : Prop extends Stays h h' where
  runs : Standing gone h.disk → Runs gone h h'

theorem Moves.of_eq (hl : h'.toLasting = h.toLasting) (hfirst : h'.oj.first = h.oj.first)
    (hlast : h'.oj.last = h.oj.last) : Moves gone h h' := by
  refine ⟨⟨hfirst, hlast, fun g es hes => ⟨es, ?_⟩⟩, fun hs => ?_⟩
  · rwa [hl] at hes
  · rw [Runs, hl]
    exact .refl hs

theorem Moves.trans (hm : Moves gone h h') (hm' : Moves gone h' h'') : Moves gone h h'' := by
  refine ⟨⟨hm'.first.trans hm.first, hm'.last.trans hm.last, fun g es hes => ?_⟩, fun hs => ?_⟩
  · obtain ⟨es', hes'⟩ := hm'.journals g es hes
    exact hm.journals g es' hes'
  · exact (hm.runs hs).trans (hm'.runs (hm.runs hs).disk)

/-- A way that only takes rows out. -/
structure Erases (gone : Row → Prop) (h h' : Host) : Prop where
  first : h'.oj.first = h.oj.first
  last : h'.oj.last = h.oj.last
  journals : h'.disk.journals = h.disk.journals
  rows : ∀ r c, h'.disk.rows.lookup r = some c → h.disk.rows.lookup r = some c
  runs : Standing gone h.disk → Runs gone h h'

theorem Erases.refl (h : Host) : Erases gone h h :=
  ⟨rfl, rfl, rfl, fun _ _ hc => hc, .refl⟩

theorem Erases.trans (he : Erases gone h h') (he' : Erases gone h' h'') : Erases gone h h'' :=
  ⟨he'.first.trans he.first, he'.last.trans he.last, he'.journals.trans he.journals,
    fun r c hc => he.rows r c (he'.rows r c hc),
    fun hs => (he.runs hs).trans (he'.runs (he.runs hs).disk)⟩

theorem Erases.moves (he : Erases gone h h') : Moves gone h h' :=
  ⟨⟨he.first, he.last, fun _ es hes => ⟨es, he.journals ▸ hes⟩⟩, he.runs⟩

theorem Erases.journalOf (he : Erases gone h h') (g : ℕ) : h'.journalOf g = h.journalOf g := by
  rw [Host.journalOf, Host.journalOf, he.first, he.last, he.journals]

theorem Erases.entryAt (he : Erases gone h h') (g seq : ℕ) :
    h'.entryAt g seq = h.entryAt g seq := by
  rw [Host.entryAt, Host.entryAt, he.journalOf]

theorem lookup_of_journalOf (hes : h.journalOf g = some es) :
    h.disk.journals.lookup g = some es := by
  rw [journalOf] at hes
  split_ifs at hes
  exact hes

/-! ## Erasing -/

theorem remove_erases (h : Host) (row : Row) : Erases gone h (h.perform (.remove row)) := by
  refine ⟨rfl, rfl, rfl, fun r c hc => ?_, fun hs => Runs.write (hs.remove row)⟩
  by_cases hr : r = row
  · rw [hr, perform, Lib.Lasting.write, Disk.apply, AList.lookup_erase] at hc
    cases hc
  · rwa [perform, Lib.Lasting.write, Disk.apply, AList.lookup_erase_ne hr] at hc

theorem eraseKept_erases (h : Host) (g seq : ℕ) (e : Entry) :
    Erases gone h (h.eraseKept g seq e) := by
  rw [eraseKept]
  split_ifs
  · have herase : Erases gone h _ := remove_erases h (keptRow g seq)
    exact ⟨rfl, rfl, rfl, herase.rows, herase.runs⟩
  · exact .refl h

/-- What an entry kept is not there behind its erasing. -/
theorem eraseKept_erased {c : Copy} (hop : e.op = .save) (hkept : e.bytesKept = true)
    (hlen : c.bytes.length ≤ bytesMax) :
    (h.eraseKept g seq e).disk.rows.lookup (keptRow g seq) ≠ some c := by
  intro hc
  rw [eraseKept] at hc
  split_ifs at hc with hheld
  · rw [perform, Lib.Lasting.write, Disk.apply, AList.lookup_erase] at hc
    cases hc
  · refine hheld ?_
    rw [bytesHeld, load, hc, Option.map_some, Option.filter_some_pos (by simpa using hlen), hkept,
      Option.isSome_some, decide_eq_true hop]
    rfl

theorem eraseEntry_erases (p : Entry → Bool) (g : ℕ) (h : Host) (seq : ℕ) :
    Erases gone h (eraseEntry p g h seq) := by
  unfold eraseEntry
  split
  next =>
    split_ifs
    · exact eraseKept_erases h _ _ _
    · exact .refl h
  next => exact .refl h

theorem eraseEntries_erases (h : Host) (g : ℕ) (p : Entry → Bool) :
    Erases gone h (h.eraseEntries g p) :=
  Lib.foldl_rel .refl (fun _ _ _ => .trans) (eraseEntry_erases p g) _ _

/-- **What an entry that `p` names kept is not there any more.** -/
theorem eraseEntries_erased {p : Entry → Bool} {c : Copy} (hes : h.journalOf g = some es)
    (he : es[seq]? = some e) (hp : p e = true) (hop : e.op = .save) (hkept : e.bytesKept = true)
    (hlen : c.bytes.length ≤ bytesMax) :
    (h.eraseEntries g p).disk.rows.lookup (keptRow g (seq + 1)) ≠ some c := by
  intro hc
  have hmem : seq + 1 ∈ h.places g := by
    have hlt := (List.getElem?_eq_some_iff.1 he).1
    rw [places, heldIn, hes, Option.getD_some, List.mem_range']
    exact ⟨seq, hlt, by omega⟩
  obtain ⟨h₁, hto, hfrom⟩ := Lib.foldl_at (R := Erases fun _ => False) .refl (fun _ _ _ => .trans)
    (eraseEntry_erases p g) hmem h
  have hentry : h₁.entryAt g (seq + 1) = some e := by
    rw [hto.entryAt, entryAt, hes, Option.bind_some, if_neg (Nat.succ_ne_zero seq),
      Nat.add_sub_cancel, he]
  have herased : (h₁.eraseKept g (seq + 1) e).disk.rows.lookup (keptRow g (seq + 1)) ≠ some c :=
    eraseKept_erased hop hkept hlen
  refine herased ?_
  have hstep := hfrom.rows _ c hc
  simpa only [eraseEntry, hentry, hp, if_true] using hstep

/-! ## Spans -/

/-- The generations there are lie between the first and the last. -/
structure Spans (first last : ℕ) (d : Disk) : Prop where
  within : ∀ g es, d.journals.lookup g = some es → first ≤ g ∧ g ≤ last
  ordered : first ≤ last
  zero : first = 0 → last = 0

/-- The process knows the generations, and its disk stands. -/
structure Sane (gone : Row → Prop) (h : Host) : Prop where
  standing : Standing gone h.disk
  spans : Spans h.oj.first h.oj.last h.disk

/-- A way between two states of a process that leaves a sane one sane. -/
structure Goes (gone : Row → Prop) (h h' : Host) : Prop where
  runs : Runs gone h h'
  spans : Spans h'.oj.first h'.oj.last h'.disk

theorem Goes.sane (hg : Goes gone h h') : Sane gone h' := ⟨hg.runs.disk, hg.spans⟩

theorem Sane.refl (hs : Sane gone h) : Goes gone h h := ⟨.refl hs.standing, hs.spans⟩

theorem Goes.trans (hg : Goes gone h h') (hg' : Goes gone h' h'') : Goes gone h h'' :=
  ⟨hg.runs.trans hg'.runs, hg'.spans⟩

theorem Moves.goes (hm : Moves gone h h') (hs : Sane gone h) : Goes gone h h' := by
  refine ⟨hm.runs hs.standing, ?_, ?_, ?_⟩
  · intro g es hes
    obtain ⟨es', hes'⟩ := hm.journals g es hes
    rw [hm.first, hm.last]
    exact hs.spans.within g es' hes'
  · rw [hm.first, hm.last]
    exact hs.spans.ordered
  · rw [hm.first, hm.last]
    exact hs.spans.zero

theorem Sane.journalOf (hs : Sane gone h) (hes : h.disk.journals.lookup g = some es) :
    h.journalOf g = some es := by
  have hpos := hs.standing.settled.positive g es hes
  obtain ⟨hfirst, hlast⟩ := hs.spans.within g es hes
  rw [Host.journalOf, if_neg (by omega), hes]

/-- **Dropping a generation** takes what it names with it. -/
theorem dropGeneration_goes (hs : Sane gone h) (g : ℕ) : Goes gone h (h.dropGeneration g) := by
  have herase : Erases gone h _ := eraseEntries_erases h g fun _ => true
  have hs₁ := (herase.moves.goes hs).sane
  set h₁ := h.eraseEntries g fun _ => true with hh₁
  have hdrop : Standing gone (h₁.disk.apply (.drop g)) := by
    refine hs₁.standing.drop fun k c hc hnamed => ?_
    obtain ⟨seq, es, e, rfl, hes, he, hop, hkept, -, hlen⟩ := hnamed
    rw [herase.journals] at hes
    exact eraseEntries_erased (hs.journalOf hes) he rfl hop hkept hlen hc
  have hruns : Runs gone h (h₁.perform (.drop g)) := (herase.runs hs.standing).trans (.write hdrop)
  have hleft : ∀ g' es, (h₁.perform (.drop g)).disk.journals.lookup g' = some es →
      g' ≠ g ∧ h₁.oj.first ≤ g' ∧ g' ≤ h₁.oj.last := by
    intro g' es hes
    have hne : g' ≠ g := by
      rintro rfl
      rw [perform, Lib.Lasting.write, Disk.apply, AList.lookup_erase] at hes
      cases hes
    rw [perform, Lib.Lasting.write, Disk.apply, AList.lookup_erase_ne hne] at hes
    exact ⟨hne, hs₁.spans.within g' es hes⟩
  obtain ⟨-, hordered, hzero⟩ := hs₁.spans
  rw [dropGeneration, ← hh₁]
  split_ifs with honly hfirst hlast
  · refine ⟨hruns, fun g' es hes => ?_, le_rfl, fun _ => rfl⟩
    have := hleft g' es hes
    simp only [perform] at honly
    omega
  · refine ⟨hruns, fun g' es hes => ?_, ?_, fun hcon => absurd hcon (Nat.succ_ne_zero _)⟩
    · have := hleft g' es hes
      simp only [perform] at hfirst ⊢
      omega
    · simp only [perform] at honly hfirst ⊢
      omega
  · refine ⟨hruns, fun g' es hes => ?_, ?_, fun hcon => ?_⟩
    · have := hleft g' es hes
      simp only [perform] at hlast ⊢
      omega
    · simp only [perform] at hfirst hlast ⊢
      omega
    · simp only [perform] at hcon ⊢
      rw [hzero hcon]
  · exact ⟨hruns, fun g' es hes => (hleft g' es hes).2, hordered, hzero⟩

/-- A newest generation dropped. -/
theorem dropGeneration_newest (hfirst : h.oj.first < g) (hlast : h.oj.last = g) :
    (h.dropGeneration g).oj.first = h.oj.first ∧ (h.dropGeneration g).oj.last = g - 1 := by
  have herase : Erases (fun _ => False) h _ := eraseEntries_erases h g fun _ => true
  unfold dropGeneration
  extract_lets h₁
  have hfirst' : h₁.oj.first = h.oj.first := herase.first
  have hlast' : h₁.oj.last = h.oj.last := herase.last
  have hold : ¬ g = h₁.oj.first := by omega
  rw [if_neg fun hcon => hold hcon.1, if_neg hold, if_pos (hlast'.trans hlast).symm]
  exact ⟨hfirst', congrArg (· - 1) (hlast'.trans hlast)⟩

/-! ## Entering -/

theorem asked_moves (h : Host) : Moves gone h h.asked := .of_eq rfl rfl rfl

/-- What appending an entry does: it is there, or the bytes kept for it are not, or there
were none. -/
theorem appendEntry_cases (h : Host) (g seq : ℕ) (e : Entry) (len : ℕ) :
    ((h.appendEntry g seq e len).2.oj.first = h.oj.first ∧
      (h.appendEntry g seq e len).2.oj.last = h.oj.last) ∧
    ((h.appendEntry g seq e len).2.toLasting = (h.perform (.append g e)).toLasting ∨
      e.bytesKept = true ∧ (h.appendEntry g seq e len).2.toLasting =
        (h.perform (.remove (keptRow g seq))).toLasting ∨
      e.bytesKept = false ∧ (h.appendEntry g seq e len).2.toLasting = h.toLasting) := by
  rw [appendEntry]
  split_ifs with hrefused hkept
  · exact ⟨⟨rfl, rfl⟩, .inr (.inl ⟨hkept, rfl⟩)⟩
  · exact ⟨⟨rfl, rfl⟩, .inr (.inr ⟨Bool.eq_false_iff.2 hkept, rfl⟩)⟩
  · exact ⟨⟨rfl, rfl⟩, .inl rfl⟩

/-- What keeping an entry's bytes does: they are there and the entry says so, or nothing. -/
theorem keepBytes_cases (h : Host) (g seq : ℕ) (e : Entry) (bytes : Bytes) :
    ((h.keepBytes g seq e bytes).2.oj.first = h.oj.first ∧
      (h.keepBytes g seq e bytes).2.oj.last = h.oj.last) ∧
    ((h.keepBytes g seq e bytes).1.op = e.op ∧ (h.keepBytes g seq e bytes).1.row = e.row) ∧
    (bytes.length ≤ bytesMax ∧ (h.keepBytes g seq e bytes).1.bytesKept = true ∧
        (h.keepBytes g seq e bytes).2.toLasting = (h.perform (.keep g seq e.row bytes)).toLasting ∨
      (h.keepBytes g seq e bytes).1.bytesKept = e.bytesKept ∧
        (h.keepBytes g seq e bytes).2.toLasting = h.toLasting) := by
  unfold keepBytes
  dsimp only
  split
  next => exact ⟨⟨rfl, rfl⟩, ⟨rfl, rfl⟩, .inr ⟨rfl, rfl⟩⟩
  next hash hhash =>
    split_ifs with hrefused
    · exact ⟨⟨rfl, rfl⟩, ⟨rfl, rfl⟩, .inr ⟨rfl, rfl⟩⟩
    · refine ⟨⟨rfl, rfl⟩, ⟨rfl, rfl⟩, .inl ⟨?_, rfl, rfl⟩⟩
      split_ifs at hhash with hlen
      exact Nat.not_lt.1 hlen

theorem append_moves (hes : h.journalOf g = some es) (e : Entry) :
    Moves gone h (h.perform (.append g e)) := by
  have hlookup := lookup_of_journalOf hes
  refine ⟨⟨rfl, rfl, fun g' es' hes' => ?_⟩, fun hs => Runs.write (hs.append hlookup e)⟩
  rw [perform, Lib.Lasting.write, lookup_append hlookup] at hes'
  split_ifs at hes' with heq
  · exact ⟨es, heq ▸ hlookup⟩
  · exact ⟨es', hes'⟩

/-- A way with the writes of another. -/
theorem Moves.of_lasting (hm : Moves gone h h') (hl : h''.toLasting = h'.toLasting)
    (hfirst : h''.oj.first = h.oj.first) (hlast : h''.oj.last = h.oj.last) : Moves gone h h'' :=
  hm.trans (.of_eq hl (hfirst.trans hm.first.symm) (hlast.trans hm.last.symm))

/-- **Entering** leaves what stands standing, if what is saved with bytes is a row that is
not gone. -/
theorem enter_moves {bytes : Option Bytes} (hb : ∀ b ∈ bytes, e.op = .save ∧
      e.bytesKept = false ∧ (Standing gone h.disk → ¬ gone e.row)) :
    Moves gone h (h.enter g e bytes).2 := by
  unfold enter
  split
  next => exact .of_eq rfl rfl rfl
  next es hes =>
    have hlookup := lookup_of_journalOf hes
    split
    next =>
      obtain ⟨⟨hfirst, hlast⟩, hl | ⟨-, hl⟩ | ⟨-, hl⟩⟩ := appendEntry_cases h g (es.length + 1) e 0
      · exact (append_moves hes e).of_lasting hl hfirst hlast
      · exact (remove_erases h _).moves.of_lasting hl hfirst hlast
      · exact .of_eq hl hfirst hlast
    next bytes =>
      obtain ⟨hop, hkept, hrow⟩ := hb bytes rfl
      obtain ⟨⟨hfirst, hlast⟩, ⟨hop', hrow'⟩, hkeep⟩ := keepBytes_cases h g (es.length + 1) e bytes
      set e' := (h.keepBytes g (es.length + 1) e bytes).1
      set h₁ := (h.keepBytes g (es.length + 1) e bytes).2
      obtain ⟨⟨hfirst', hlast'⟩, happend⟩ :=
        appendEntry_cases h₁ g (es.length + 1) e' bytes.length
      rw [hfirst] at hfirst'
      rw [hlast] at hlast'
      rcases hkeep with ⟨hlen, hkept', hl₁⟩ | ⟨hkept', hl₁⟩
      · -- the bytes are kept first: what is left between the two writes is open
        rcases happend with hl | ⟨-, hl⟩ | ⟨hno, -⟩
        · rw [perform, hl₁] at hl
          refine ⟨⟨hfirst', hlast', fun g' es' hes' => ?_⟩, fun hs => ?_⟩
          · rw [hl] at hes'
            have happended : Moves gone h _ := append_moves hes e'
            exact happended.journals g' es' hes'
          · rw [Runs, hl]
            have hstand := hs.keep_append hlookup (hop'.trans hop) hkept' (hrow' ▸ hrow hs) hlen
            rw [hrow'] at hstand
            exact Lib.Lasting.Passes.pair trivial hstand
        · rw [perform, hl₁] at hl
          refine ⟨⟨hfirst', hlast', fun g' es' hes' => ⟨es', ?_⟩⟩, fun hs => ?_⟩
          · rwa [hl] at hes'
          · rw [Runs, hl]
            exact Lib.Lasting.Passes.pair trivial (hs.keep_remove g (es.length + 1) e.row bytes)
        · rw [hkept'] at hno
          cases hno
      · have hsame : Moves gone h h₁ := .of_eq hl₁ hfirst hlast
        have hes₁ : h₁.journalOf g = some es := by
          rw [← hes, journalOf, journalOf, hfirst, hlast, hl₁]
        rcases happend with hl | ⟨hyes, -⟩ | ⟨-, hl⟩
        · exact (hsame.trans (append_moves hes₁ e')).of_lasting hl hfirst' hlast'
        · rw [hkept', hkept] at hyes
          cases hyes
        · exact hsame.of_lasting hl hfirst' hlast'

/-! ## Snapshots -/

theorem snapshotRow_moves {row : Row} (hkeeps : keeps row.slot = true) (h : Host) (g : ℕ)
    (listed : Bool) (count : ℕ) : Moves gone h (h.snapshotRow g row listed count).2 := by
  unfold snapshotRow
  split
  next => exact .of_eq rfl rfl rfl
  next bytes hload =>
    have henter : Moves gone h (h.enter g ⟨.save, row, false, 0, 0⟩ (some bytes)).2 := by
      refine enter_moves fun b _ => ⟨rfl, rfl, fun hs hgone => ?_⟩
      rw [load, (hs.gone row hgone hkeeps).absent] at hload
      cases hload
    split <;> rename_i heq <;> rw [heq] at henter <;> exact henter

theorem snapshotRows_moves {slot : ℕ} (hkeeps : keeps slot = true) (g : ℕ) (ks : List Bytes32)
    (count : ℕ) (h : Host) : Moves gone h (snapshotRows g slot ks count h).2 := by
  induction ks generalizing count h with
  | nil => exact .of_eq rfl rfl rfl
  | cons k ks ih =>
    have hrow : Moves gone h (h.snapshotRow g ⟨slot, some k⟩ true count).2 :=
      snapshotRow_moves hkeeps h g true count
    rw [snapshotRows]
    split <;> rename_i heq <;> rw [heq] at hrow
    · exact hrow.trans (ih _ _)
    · exact hrow

theorem snapshotSlot_moves (h : Host) (g slot count : ℕ) :
    Moves gone h (h.snapshotSlot g slot count).2 := by
  unfold snapshotSlot
  split_ifs with hno hhost
  · exact .of_eq rfl rfl rfl
  · exact snapshotRow_moves (eq_true_of_ne_false hno) h g false count
  · split
    next => exact asked_moves h
    next => exact (asked_moves h).trans (snapshotRows_moves (eq_true_of_ne_false hno) g _ count _)

theorem snapshot_moves (g : ℕ) (slots : List ℕ) (count : ℕ) (h : Host) :
    Moves gone h (snapshot g slots count h).2 := by
  induction slots generalizing count h with
  | nil => exact .of_eq rfl rfl rfl
  | cons slot slots ih =>
    have hslot : Moves gone h _ := snapshotSlot_moves h g slot count
    rw [snapshot]
    split <;> rename_i heq <;> rw [heq] at hslot
    · exact hslot.trans (ih _ _)
    · exact hslot

/-- **Opening a generation**: refused, or begun and then dropped again or whole. -/
theorem openGeneration_cases (gone : Row → Prop) (h : Host) (g : ℕ) :
    h.openGeneration g = (false, h.asked) ∨
      (∃ h', Moves gone (h.beginGeneration g) h' ∧
        h.openGeneration g = (false, h'.dropGeneration g)) ∨
      (h.openGeneration g).1 = true ∧ Moves gone (h.beginGeneration g) (h.openGeneration g).2 := by
  unfold openGeneration
  split_ifs with hrefused
  · exact .inl rfl
  right
  have hsnap : Moves gone (h.beginGeneration g) _ :=
    snapshot_moves g (List.range' 1 (slotEnd - 1)) 0 (h.beginGeneration g)
  split <;> rename_i heq <;> rw [heq] at hsnap
  · exact .inl ⟨_, hsnap, rfl⟩
  next count h' =>
    split_ifs with hmany
    · exact .inl ⟨_, hsnap, rfl⟩
    have henter : Moves gone h' (h'.enter g ⟨.opened, ⟨0, none⟩, false, 0, count⟩ none).2 :=
      enter_moves fun b hb => absurd hb (Option.not_mem_none b)
    split <;> rename_i hentered <;> rw [hentered] at henter
    · exact .inl ⟨_, hsnap.trans henter, rfl⟩
    · exact .inr ⟨rfl, (hsnap.trans henter).of_lasting rfl (hsnap.trans henter).first
        (hsnap.trans henter).last⟩

theorem beginGeneration_goes (hs : Sane gone h) (hg : g = h.oj.last + 1) :
    Goes gone h (h.beginGeneration g) := by
  have hpos : 0 < g := by omega
  obtain ⟨hwithin, hordered, hzero⟩ := hs.spans
  have hfirst : (h.beginGeneration g).oj.first = if h.oj.first = 0 then g else h.oj.first := rfl
  have hlast : (h.beginGeneration g).oj.last = g := rfl
  refine ⟨Runs.write (h := h.asked) (hs.standing.create hpos), fun g' es hes => ?_, ?_, ?_⟩
  · rw [hfirst, hlast]
    rw [beginGeneration, perform, Lib.Lasting.write] at hes
    rw [show h.asked.disk = h.disk from rfl, lookup_create] at hes
    by_cases heq : g' = g
    · rw [heq]
      split_ifs <;> omega
    · rw [if_neg heq] at hes
      have hg' := hwithin g' es hes
      have hpos' := hs.standing.settled.positive g' es hes
      split_ifs with hnone
      · have := hzero hnone
        omega
      · omega
  · rw [hfirst, hlast]
    split_ifs <;> omega
  · rw [hfirst, hlast]
    split_ifs <;> omega

theorem openGeneration_goes (hs : Sane gone h) (hg : g = h.oj.last + 1) :
    Goes gone h (h.openGeneration g).2 := by
  have hbegin := beginGeneration_goes hs hg
  rcases openGeneration_cases gone h g with heq | ⟨h', hmoves, heq⟩ | ⟨-, hmoves⟩
  · rw [heq]
    exact (asked_moves h).goes hs
  · have hsnap := hbegin.trans (hmoves.goes hbegin.sane)
    rw [heq]
    exact hsnap.trans (dropGeneration_goes hsnap.sane g)
  · exact hbegin.trans (hmoves.goes hbegin.sane)

/-- An opening that fails leaves the newest where it was. -/
theorem openGeneration_failed (hs : Sane gone h) (hpos : 0 < h.oj.last)
    (hfails : (h.openGeneration (h.oj.last + 1)).1 = false) :
    (h.openGeneration (h.oj.last + 1)).2.oj.last = h.oj.last := by
  rcases openGeneration_cases gone h (h.oj.last + 1) with heq | ⟨h', hmoves, heq⟩ | ⟨hok, -⟩
  · rw [heq]
    rfl
  · have hfirst : h'.oj.first = h.oj.first := by
      refine hmoves.first.trans (if_neg fun hnone => ?_)
      have := hs.spans.zero hnone
      omega
    have hlast : h'.oj.last = h.oj.last + 1 := hmoves.last
    have hordered := hs.spans.ordered
    rw [heq]
    exact (dropGeneration_newest (by omega) hlast).2
  · rw [hok] at hfails
    cases hfails

/-! ## Retention and rotation -/

theorem eraseKept_moves (h : Host) (g seq : ℕ) (e : Entry) :
    Moves gone h (h.eraseKept g seq e) := (eraseKept_erases h g seq e).moves

theorem retainEntries_moves (n : ℕ) (h : Host) : Moves gone h (retainEntries n h) := by
  induction n generalizing h with
  | zero => exact .of_eq rfl rfl rfl
  | succ n ih =>
    rw [retainEntries]
    split_ifs
    · exact .of_eq rfl rfl rfl
    · refine Moves.trans ?_ (ih _)
      split
      next e _ =>
        have herase : Moves gone h _ := eraseKept_moves h h.oj.oldestGeneration h.oj.oldest e
        exact herase.of_lasting rfl herase.first herase.last
      next => exact .of_eq rfl rfl rfl

theorem retainGenerations_moves (n : ℕ) (h : Host) : Moves gone h (retainGenerations n h) := by
  induction n generalizing h with
  | zero => exact retainEntries_moves _ h
  | succ n ih =>
    have hwalk : Moves gone h _ :=
      retainEntries_moves (h.heldIn h.oj.oldestGeneration + 1 - h.oj.oldest) h
    rw [retainGenerations]
    split_ifs
    · exact hwalk
    · refine Moves.trans ?_ (ih _)
      exact hwalk.of_lasting rfl hwalk.first hwalk.last

theorem fromFirst_moves (h : Host) : Moves gone h h.fromFirst := by
  rw [fromFirst]
  split_ifs
  · exact .of_eq rfl rfl rfl
  · exact .of_eq rfl rfl rfl

theorem fromOne_moves (h : Host) : Moves gone h h.fromOne := by
  rw [fromOne]
  split_ifs
  · exact .of_eq rfl rfl rfl
  · exact .of_eq rfl rfl rfl

theorem retain_moves (h : Host) : Moves gone h h.retain := by
  rw [retain]
  split_ifs
  · exact .of_eq rfl rfl rfl
  · exact fromFirst_moves h
  · exact ((fromFirst_moves h).trans (fromOne_moves _)).trans (retainGenerations_moves _ _)

theorem dropPast_goes (n : ℕ) (hs : Sane gone h) : Goes gone h (dropPast n h) := by
  induction n generalizing h with
  | zero => exact hs.refl
  | succ n ih =>
    rw [dropPast]
    split_ifs
    · have hdrop := dropGeneration_goes hs h.oj.first
      exact hdrop.trans (ih hdrop.sane)
    · exact hs.refl

theorem rotate_goes (hs : Sane gone h) : Goes gone h h.rotate := by
  rw [rotate]
  split_ifs with hlater
  · exact hs.refl
  have hpos : 0 < h.oj.last := by
    -- a generation of no entries is not full
    refine Nat.pos_of_ne_zero fun hzero => hlater ?_
    have hheld : h.writesIn = 0 := by
      rw [writesIn, heldIn, journalOf, if_pos (.inl hzero)]
      exact Nat.zero_sub _
    rw [hheld]
    omega
  have hopen := openGeneration_goes hs rfl
  have hfailed := openGeneration_failed hs hpos
  split <;> rename_i h' heq <;> rw [heq] at hopen hfailed
  · have hspans := hopen.spans
    rw [hfailed rfl] at hspans
    exact ⟨hopen.runs, hspans⟩
  · have hon : Goes gone h' h'.putOn := Moves.goes (.of_eq rfl rfl rfl) hopen.sane
    exact (hopen.trans hon).trans (dropPast_goes _ hon.sane)

end Host
end OpJournal
end Node
end Fuzznet
