/-
# What a classic line is read from

One line an entry is what keeps a forged line out of a log, so a line that is read should be
one line.  `fzn_entry_classic_parse` checks each field with a helper made for something else:
`copy_word` checks a word up to its first NUL, and `fzn_entry_machine_parse` takes the newline
`/etc/machine-id` ends in.  So a line is read whose words hold more than is kept of them, or
whose cause breaks it in two.

What is read is one line, with every word whole, exactly where no byte of it is NUL and each
machine in it is of 32 characters (`line_read_whole`).  Whatever was read is written again and
read back the same (`read_written_again`).
-/

import Fuzznet.Log.ClassicLine

namespace Fuzznet
namespace Log

open Wire Lib

/-- The texts of a name's words. -/
def nameWords (t : Bytes) : List Bytes :=
  match nameParts t with
  | some (_, user, program, _) => [user, program]
  | none => []

/-- The text of a name's machine. -/
def nameMachine (t : Bytes) : List Bytes :=
  match nameParts t with
  | some (machine, _, _, _) => [machine]
  | none => []

/-- The texts of a line's words, the host's and then the entry's. -/
def LineFields.words (f : LineFields) : List Bytes :=
  [f.host, f.user, f.program, f.subsystem] ++
    (nameWords (f.cause.drop 1) ++ nameWords (f.origin.drop 2))

/-- The texts of the machines in a line's cause and origin. -/
def LineFields.machines (f : LineFields) : List Bytes :=
  nameMachine (f.cause.drop 1) ++ nameMachine (f.origin.drop 2)

/-! ## What was read -/

section Read

variable {w src t cause origin : Bytes} {max : ℕ} {subsystem : Bool} {n : EntryName}
variable {c : Option (EntryName × EntryName)} {b : UInt8}

/-- A word read from a text with no NUL is the text. -/
theorem copyWord_whole (h : copyWord src max subsystem = some w) (hzero : 0 ∉ src) :
    src = w ∧ ∀ b ∈ src, Graphic b := by
  obtain ⟨-, -, rfl, hkept⟩ := copyWord_eq_some_iff.1 h
  rw [cString_of_not_mem hzero] at hkept ⊢
  exact ⟨rfl, fun b => wordKept_graphic hkept⟩

theorem levelOf_graphic {l : EntryLevel} (h : levelOf b = some l) : Graphic b := by
  unfold levelOf at h
  split at h
  all_goals first
    | cases h; done
    | exact ⟨by decide, by decide⟩

/-- A name read from a text with no NUL, whose machine is of 32 characters, is the text. -/
theorem entryNameParse_whole (h : entryNameParse t = some n) (hzero : 0 ∉ t)
    (hmachine : ∀ m ∈ nameMachine t, m.length = 32) :
    nameWords t = n.words ∧ ∀ b ∈ t, Graphic b := by
  obtain ⟨m, u, p, i, hparts, hm, hu, hp, hi⟩ := entryNameParse_eq_some_iff.1 h
  rw [nameMachine, hparts] at hmachine
  rw [nameWords, hparts]
  obtain ⟨rfl, -⟩ := nameParts_eq_some_iff.1 hparts
  simp only [nameLayout, List.mem_append, List.mem_cons, not_or] at hzero
  obtain ⟨-, -, hzu, -, hzp, -, -⟩ := hzero
  obtain ⟨rfl, hugraphic⟩ := copyWord_whole hu hzu
  obtain ⟨rfl, hpgraphic⟩ := copyWord_whole hp hzp
  refine ⟨rfl, fun b hb => ?_⟩
  have hlen := hmachine m (List.mem_singleton_self m)
  simp only [nameLayout, List.mem_append, List.mem_cons] at hb
  rcases hb with hb | rfl | hb | rfl | hb | rfl | hb
  · rcases machineParse_some hm with rfl | rfl
    · exact hexOf_graphic hb
    · rw [List.length_append, length_hexOf] at hlen
      exact absurd hlen (by decide)
  · exact ⟨by decide, by decide⟩
  · exact hugraphic b hb
  · exact ⟨by decide, by decide⟩
  · exact hpgraphic b hb
  · exact ⟨by decide, by decide⟩
  · exact instanceParse_some hi hb

/-- A machine that was read is of 32 characters, or ends in a newline of the text. -/
theorem nameMachine_length (h : entryNameParse t = some n) (hnewline : newline ∉ t) :
    ∀ m ∈ nameMachine t, m.length = 32 := by
  obtain ⟨m, u, p, i, hparts, hm, -⟩ := entryNameParse_eq_some_iff.1 h
  rw [nameMachine, hparts]
  obtain ⟨rfl, -⟩ := nameParts_eq_some_iff.1 hparts
  intro m' hm'
  rw [List.mem_singleton.1 hm']
  rcases machineParse_some hm with rfl | rfl
  · exact length_hexOf 16 _
  · exact absurd (by simp [nameLayout]) hnewline

/-- **CAUSE and ORIGIN are both dashes or both names.** -/
theorem causedParse_some (h : causedParse cause origin = some c) :
    (cause = [45] ∧ origin = [45] ∧ c = none) ∨
      ∃ t t' n n', cause = 60 :: t ∧ origin = 60 :: 60 :: t' ∧ entryNameParse t = some n ∧
        entryNameParse t' = some n' ∧ c = some (n, n') := by
  unfold causedParse at h
  split_ifs at h with hdash
  · exact .inl ⟨hdash.1, hdash.2, (Option.some.inj h).symm⟩
  · split at h
    next t t' =>
      split_ifs at h with hshape
      simp only [Option.bind_eq_bind, Option.bind_eq_some_iff] at h
      obtain ⟨n, hn, n', hn', heq⟩ := h
      exact .inr ⟨t, t', n, n', rfl, rfl, hn, hn', (Option.some.inj heq).symm⟩
    next => cases h

theorem causedParse_causedOk (h : causedParse cause origin = some c) : causedOk c = true := by
  rcases causedParse_some h with ⟨-, -, rfl⟩ | ⟨t, t', n, n', -, -, hn, hn', rfl⟩
  · rfl
  · rw [causedOk, Option.all_some, entryNameParse_nameOk hn, entryNameParse_nameOk hn',
      Bool.and_self]

/-- Every field of a line that is read, where no byte of it is NUL and its machines are of 32
characters. -/
theorem fieldsParse_whole {f : LineFields} {e : Entry} {host : Bytes} {machine : Machine}
    {cap : ℕ} (h : fieldsParse f machine cap = some (e, host)) (hzero : ∀ w ∈ f.list, 0 ∉ w)
    (hmachine : ∀ m ∈ f.machines, m.length = 32) :
    f.words = host :: e.words ∧ ∀ w ∈ f.list, ∀ b ∈ w, Graphic b := by
  obtain ⟨htime, hhost, -, huser, hprogram, hinst, hlevel, hsubsystem, hcaused, -⟩ :=
    fieldsParse_eq_some_iff.1 h
  simp only [LineFields.list, List.forall_mem_cons, List.not_mem_nil, false_implies,
    implies_true, and_true] at hzero ⊢
  obtain ⟨-, hzhost, hzuser, hzprogram, -, -, hzsubsystem, hzcause, hzorigin⟩ := hzero
  obtain ⟨us, hus, -⟩ := Option.map_eq_some_iff.1 htime
  obtain ⟨hhost, hghost⟩ := copyWord_whole hhost hzhost
  obtain ⟨huser, hguser⟩ := copyWord_whole huser hzuser
  obtain ⟨hprogram, hgprogram⟩ := copyWord_whole hprogram hzprogram
  obtain ⟨hsubsystem, hgsubsystem⟩ := copyWord_whole hsubsystem hzsubsystem
  rw [LineFields.machines, List.forall_mem_append] at hmachine
  have hnames : nameWords (f.cause.drop 1) ++ nameWords (f.origin.drop 2) =
      (e.caused.elim [] fun c => c.1.words ++ c.2.words) ∧
      (∀ b ∈ f.cause, Graphic b) ∧ ∀ b ∈ f.origin, Graphic b := by
    rcases causedParse_some hcaused with ⟨hc, ho, heq⟩ | ⟨t, t', n, n', hc, ho, hn, hn', heq⟩
    · rw [hc, ho, heq]
      refine ⟨rfl, fun b hb => ?_, fun b hb => ?_⟩ <;>
      · rw [List.mem_singleton.1 hb]
        exact ⟨by decide, by decide⟩
    · rw [hc, ho, heq]
      rw [hc, List.mem_cons, not_or] at hzcause
      rw [ho, List.mem_cons, List.mem_cons, not_or, not_or] at hzorigin
      rw [hc, ho] at hmachine
      obtain ⟨hw, hg⟩ := entryNameParse_whole hn hzcause.2 hmachine.1
      obtain ⟨hw', hg'⟩ := entryNameParse_whole hn' hzorigin.2.2 hmachine.2
      refine ⟨?_, fun b hb => ?_, fun b hb => ?_⟩
      · rw [Option.elim_some, ← hw, ← hw']
        rfl
      · rcases List.mem_cons.1 hb with rfl | hb
        · exact ⟨by decide, by decide⟩
        · exact hg b hb
      · rcases List.mem_cons.1 hb with rfl | hb
        · exact ⟨by decide, by decide⟩
        · rcases List.mem_cons.1 hb with rfl | hb
          · exact ⟨by decide, by decide⟩
          · exact hg' b hb
  refine ⟨?_, fun b => timeParse_graphic hus, hghost, hguser, hgprogram,
    fun b => instanceParse_some hinst, ?_, hgsubsystem, hnames.2.1, hnames.2.2⟩
  · rw [LineFields.words, hnames.1, hhost, huser, hprogram, hsubsystem]
    rfl
  · exact levelOf_graphic hlevel

end Read

/-! ## A line that is read -/

section Line

variable {line : Bytes} {machine : Machine} {cap : ℕ} {e : Entry} {host : Bytes} {b : UInt8}

theorem mem_body {f : LineFields} :
    b ∈ f.body ↔ (∃ w ∈ f.list, b ∈ w) ∨ b = 32 ∨ b ∈ f.text := by
  rw [LineFields.body, List.mem_append, List.mem_flatMap, ← or_assoc]
  refine or_congr_left ⟨?_, ?_⟩
  · rintro ⟨w, hw, hb⟩
    rcases List.mem_append.1 hb with hb | hb
    · exact .inl ⟨w, hw, hb⟩
    · exact .inr (List.mem_singleton.1 hb)
  · rintro (⟨w, hw, hb⟩ | rfl)
    · exact ⟨w, hw, List.mem_append_left _ hb⟩
    · exact ⟨f.time, List.mem_cons_self, List.mem_append_right _ (List.mem_singleton_self _)⟩

/-- **What was read is packed, and its time has a text.** -/
theorem entryClassicParse_ok (h : entryClassicParse line machine cap = some (e, host)) :
    entryOk e = true ∧ isWord host wordMax = true ∧ e.name.machine = machine ∧
      e.timeUs.toNat < timeEnd := by
  obtain ⟨f, -, hf⟩ := Option.bind_eq_some_iff.1 h
  obtain ⟨htime, hhost, hmachine, huser, hprogram, -, -, hsubsystem, hcaused, -, hlen⟩ :=
    fieldsParse_eq_some_iff.1 hf
  obtain ⟨us, hus, heq⟩ := Option.map_eq_some_iff.1 htime
  have hlt := timeParse_lt hus
  refine ⟨entryOk_iff.2 ⟨?_, (copyWord_eq_some_iff.1 hsubsystem).2.2.2, hlen,
    causedParse_causedOk hcaused⟩, (copyWord_false.1 hhost).2.2, hmachine, ?_⟩
  · rw [nameOk, (copyWord_false.1 huser).2.2, (copyWord_false.1 hprogram).2.2, Bool.and_self]
  · rw [timeEnd] at hlt ⊢
    rw [← heq, UInt64.toNat_ofNat']
    omega

/-- **What was read is written again and read back the same**, in any buffer with room. -/
theorem read_written_again (h : entryClassicParse line machine cap = some (e, host)) {room : ℕ}
    (hroom : classicSize e host < room) : ∃ line', entryClassic e host room = .ok line' ∧
      ∀ cap', e.text.length ≤ cap' → entryClassicParse line' machine cap' = some (e, host) := by
  obtain ⟨hok, hhost, hmachine, hlt⟩ := entryClassicParse_ok h
  have hspec := timeText_spec e.timeUs
  rw [if_pos hlt] at hspec
  obtain ⟨time, htime, hlen, hparse⟩ := hspec
  refine ⟨(classicFields e host time).line, ?_, fun cap' hcap => ?_⟩
  · rw [entryClassic_ok hok hhost (by omega), htime]
    dsimp only
    rw [length_classicFields_line (entryOk_iff.1 hok).2.2.1 hlen, if_neg (by omega)]
  · rw [← hmachine]
    exact entryClassic_parse hok hhost hparse hcap

end Line

/-- What is said of a line that is read: it is one line, each word of the entry is the whole of
its text there, and the entry is written again and read back the same. -/
def ReadWhole (line : Bytes) (machine : Machine) (e : Entry) (host : Bytes) : Prop :=
  (∀ b ∈ stripLine line, Printable b) ∧
  (∀ f, lineFields line = some f → f.words = host :: e.words) ∧
  ∀ room, classicSize e host < room → ∃ line', entryClassic e host room = .ok line' ∧
    ∀ cap, e.text.length ≤ cap → entryClassicParse line' machine cap = some (e, host)

/-- **A line that is read is one line of whole words exactly where no byte of it is NUL and
each machine in it is of 32 characters.** -/
theorem line_read_whole (line : Bytes) (machine : Machine) (cap : ℕ) (e : Entry) (host : Bytes)
    (h : entryClassicParse line machine cap = some (e, host)) :
    ReadWhole line machine e host ↔
      0 ∉ line ∧ ∀ f, lineFields line = some f → ∀ m ∈ f.machines, m.length = 32 := by
  obtain ⟨f, hf, hread⟩ := Option.bind_eq_some_iff.1 h
  obtain ⟨-, hbody⟩ := lineFields_eq_some_iff.1 hf
  have hfields := fieldsParse_eq_some_iff.1 hread
  have hone : ∀ g, lineFields line = some g → g = f := fun g hg =>
    Option.some.inj (hg.symm.trans hf)
  constructor
  · rintro ⟨hprintable, -⟩
    rw [hbody] at hprintable
    refine ⟨fun hzero => ?_, fun g hg => ?_⟩
    · rcases line_eq_stripLine line with heq | heq
      · rw [heq, hbody] at hzero
        exact absurd (hprintable 0 hzero).1 (by decide)
      · rw [heq, hbody, List.mem_append] at hzero
        rcases hzero with hzero | hzero
        · exact absurd (hprintable 0 hzero).1 (by decide)
        · exact absurd (List.mem_singleton.1 hzero) (by decide)
    · -- a newline a machine was read with would stand in the body
      have hnewline : ∀ w ∈ f.list, newline ∉ w := fun w hw hmem =>
        absurd (hprintable newline (mem_body.2 (.inl ⟨w, hw, hmem⟩))).1 (by decide)
      rw [hone g hg, LineFields.machines, List.forall_mem_append]
      have hcause : newline ∉ f.cause := hnewline f.cause (by simp [LineFields.list])
      have horigin : newline ∉ f.origin := hnewline f.origin (by simp [LineFields.list])
      obtain ⟨-, -, -, -, -, -, -, -, hcaused, -⟩ := hfields
      rcases causedParse_some hcaused with ⟨hc, ho, -⟩ | ⟨t, t', n, n', hc, ho, hn, hn', -⟩
      · rw [hc, ho]
        exact ⟨fun m hm => (by cases hm), fun m hm => (by cases hm)⟩
      · rw [hc] at hcause ⊢
        rw [ho] at horigin ⊢
        exact ⟨nameMachine_length hn fun hmem => hcause (List.mem_cons_of_mem _ hmem),
          nameMachine_length hn' fun hmem =>
            horigin (List.mem_cons_of_mem _ (List.mem_cons_of_mem _ hmem))⟩
  · rintro ⟨hzero, hmachine⟩
    have hinside {b : UInt8} (hb : b ∈ f.body) : b ∈ line := by
      rw [← hbody] at hb
      rcases line_eq_stripLine line with heq | heq
      · rwa [heq]
      · rw [heq]
        exact List.mem_append_left _ hb
    obtain ⟨hwords, hgraphic⟩ := fieldsParse_whole hread
      (fun w hw hmem => hzero (hinside (mem_body.2 (.inl ⟨w, hw, hmem⟩)))) (hmachine f hf)
    refine ⟨fun b hb => ?_, fun g hg => by rw [hone g hg, hwords],
      fun room => read_written_again h⟩
    rw [hbody] at hb
    rcases mem_body.1 hb with ⟨w, hw, hb⟩ | rfl | hb
    · exact printable_of_graphic (hgraphic w hw b hb)
    · exact ⟨by decide, by decide⟩
    · obtain ⟨-, -, -, -, -, -, -, -, -, htext, -⟩ := hfields
      exact (unescapeText_some htext).1 b hb

/-- A line of a host, with what stands behind the host's NUL. -/
def hostLine (behind : Bytes) : Bytes :=
  ascii "1970-01-01T00:00:00.000000Z h" ++ behind ++ ascii " a p 0@0#0 I s - - "

/-- What such a line is read as. -/
theorem hostLine_read (behind : Bytes)
    (h : behind = [] ∨ behind = [0, newline]) :
    entryClassicParse (hostLine behind) 0 0 = some (userEntry [97], [104]) := by
  rcases h with rfl | rfl <;> decide +kernel

/-- The plain line is read whole. -/
theorem line_read_whole_host : ReadWhole (hostLine []) 0 (userEntry [97]) [104] := by
  refine (line_read_whole _ 0 0 _ _ (hostLine_read [] (.inl rfl))).2 ⟨by decide, fun f hf => ?_⟩
  have hfields : (lineFields (hostLine [])).map LineFields.machines = some [] := by decide
  rw [hf, Option.map_some] at hfields
  rw [Option.some.inj hfields]
  exact fun m hm => absurd hm List.not_mem_nil

/-- **A line is read with a newline in the middle of it**, behind a NUL in the host. -/
theorem line_read_broken : ¬ ∀ line machine cap e host,
    entryClassicParse line machine cap = some (e, host) → ReadWhole line machine e host := by
  intro h
  have hread := (h _ 0 0 _ _ (hostLine_read [0, newline] (.inr rfl))).1 newline (by decide)
  exact absurd hread.1 (by decide)

end Log
end Fuzznet
