/-
# The record log

`log/log.c`: a bounded log of records.  An append goes behind those held while there is room,
and over the one appended longest ago when there is none, found by the stamps; the entries
stand in no order.

What is held is a window of what was appended (`RecordLog.Window`): the last `capacity` of the
appends taken, whatever streams they are of, each under the stamp of its turn.  A step keeps
the window (`window_append`), while the stamps, 64 bits wide, have not come round.  The reads
are about one stream: `readSince` finds the lowest sequence above what it has taken, pass by
pass, so it returns the first of that stream's entries in order (`readSince_spec`).
-/

import Fuzznet.Lib.Newest
import Fuzznet.Lib.LastRow
import Fuzznet.State.Cells

namespace Fuzznet
namespace Log

open Wire Lib Record

/-- `fzn_log_err_t`. -/
inductive RecordLogErr
  | ok
  | malformed
  | duplicate
  | gone
  | absent
  deriving DecidableEq, Repr

/-- `fzn_log_entry_t`. -/
structure RecordLogEntry where
  key : StreamKey
  seq : UInt64
  stamp : UInt64
  body : Bytes
  kind : UInt32
  deriving DecidableEq, Repr

/-- `fzn_log_t`: the entries in use, and the room the caller gave. -/
structure RecordLog where
  entries : List RecordLogEntry
  capacity : ℕ
  nextStamp : UInt64
  dropped : UInt64
  deriving DecidableEq, Repr

/-- `usable`. -/
def RecordLog.usable (l : RecordLog) : Bool :=
  decide (l.capacity ≠ 0 ∧ l.entries.length ≤ l.capacity)

/-- What an entry is found by. -/
def RecordLogEntry.cell (e : RecordLogEntry) : StreamKey × UInt64 := (e.key, e.seq)

/-- `find`: every entry is scanned, and the last match is the answer. -/
def RecordLog.find (l : RecordLog) (k : StreamKey) (seq : UInt64) : Option (ℕ × RecordLogEntry) :=
  lastRow RecordLogEntry.cell (k, seq) l.entries

/-- `fzn_log_init` over an array of `capacity` entries. -/
def recordLogInit (capacity : ℕ) : Except RecordLogErr RecordLog :=
  if capacity = 0 then .error .malformed else .ok ⟨[], capacity, 1, 0⟩

/-- The scan of `slot_for_append` over the rest of the entries: the place of the lowest
stamp. -/
def oldestFrom : List RecordLogEntry → ℕ → UInt64 → ℕ → ℕ
  | [], best, _, _ => best
  | e :: es, best, stamp, i =>
    if e.stamp < stamp then oldestFrom es i e.stamp (i + 1) else oldestFrom es best stamp (i + 1)

/-- The place of the entry appended longest ago. -/
def oldestPlace : List RecordLogEntry → ℕ
  | [] => 0
  | e :: es => oldestFrom es 0 e.stamp 1

/-- What an append keeps of a record. -/
def entryOf (r : RecordView) (stamp : UInt64) : RecordLogEntry where
  key := r.key
  seq := r.seq
  stamp := stamp
  body := State.recordBody r
  kind := UInt32.ofNat (getBe r.bytes 70 4)

/-- `slot_for_append`, and the entry written there. -/
def RecordLog.place (l : RecordLog) (e : RecordLogEntry) : RecordLog :=
  if l.entries.length < l.capacity then { l with entries := l.entries ++ [e] }
  else
    { l with
      entries := l.entries.set (oldestPlace l.entries) e
      dropped := l.dropped + 1 }

/-- `fzn_log_append`. -/
def recordLogAppend (l : RecordLog) (r : RecordView) : RecordLogErr × RecordLog :=
  if l.usable = false ∨ r.seq = 0 then (.malformed, l)
  else if (l.find r.key r.seq).isSome then (.duplicate, l)
  else (.ok, { l.place (entryOf r l.nextStamp) with nextStamp := l.nextStamp + 1 })

/-- One entry of a pass of `fzn_log_read_since`. -/
def lowestTurn (k : StreamKey) (taken : UInt64) (best : Option RecordLogEntry)
    (e : RecordLogEntry) : Option RecordLogEntry :=
  if e.seq ≤ taken ∨ e.key ≠ k then best
  else match best with
    | none => some e
    | some b => if e.seq < b.seq then some e else some b

/-- A pass of `fzn_log_read_since`: the lowest sequence above what has been taken. -/
def lowestAbove (es : List RecordLogEntry) (k : StreamKey) (taken : UInt64) :
    Option RecordLogEntry :=
  es.foldl (lowestTurn k taken) none

/-- The passes of `fzn_log_read_since`. -/
def readFrom (es : List RecordLogEntry) (k : StreamKey) : ℕ → UInt64 → List RecordLogEntry
  | 0, _ => []
  | cap + 1, taken =>
    match lowestAbove es k taken with
    | none => []
    | some e => e :: readFrom es k cap e.seq

/-- `fzn_log_read_since` into room for `cap` entries. -/
def RecordLog.readSince (l : RecordLog) (k : StreamKey) (since : UInt64) (cap : ℕ) :
    List RecordLogEntry :=
  if l.usable = false then [] else readFrom l.entries k cap since

/-! ## The oldest -/

section Oldest

variable {es : List RecordLogEntry} {e : RecordLogEntry}

/-- The place found holds a stamp no entry is below. -/
theorem oldestFrom_spec (pre es : List RecordLogEntry) (best : ℕ) (stamp : UInt64)
    (hbest : ∃ b, pre[best]? = some b ∧ b.stamp = stamp ∧ ∀ e ∈ pre, stamp ≤ e.stamp) :
    ∃ b, (pre ++ es)[oldestFrom es best stamp pre.length]? = some b ∧
      ∀ e ∈ pre ++ es, b.stamp ≤ e.stamp := by
  induction es generalizing pre best stamp with
  | nil =>
    obtain ⟨b, hb, rfl, hle⟩ := hbest
    rw [List.append_nil]
    exact ⟨b, hb, hle⟩
  | cons e es ih =>
    obtain ⟨b, hb, rfl, hle⟩ := hbest
    have hpre : pre ++ e :: es = (pre ++ [e]) ++ es := by rw [List.append_assoc]; rfl
    have hlen : pre.length + 1 = (pre ++ [e]).length := by
      rw [List.length_append, List.length_singleton]
    rw [oldestFrom, hpre]
    split_ifs with hlt
    · rw [hlen]
      refine ih (pre ++ [e]) pre.length e.stamp ⟨e, List.getElem?_concat_length, rfl, ?_⟩
      intro e' he'
      rcases List.mem_append.1 he' with he' | he'
      · exact UInt64.le_trans (UInt64.le_of_lt hlt) (hle e' he')
      · rw [List.mem_singleton.1 he']
        exact UInt64.le_refl _
    · rw [hlen]
      have hin := (List.getElem?_eq_some_iff.1 hb).1
      refine ih (pre ++ [e]) best b.stamp ⟨b, by rw [List.getElem?_append_left hin, hb], rfl, ?_⟩
      intro e' he'
      rcases List.mem_append.1 he' with he' | he'
      · exact hle e' he'
      · rw [List.mem_singleton.1 he']
        exact UInt64.not_lt.1 hlt

theorem oldestPlace_spec (hne : es ≠ []) :
    ∃ b, es[oldestPlace es]? = some b ∧ ∀ e ∈ es, b.stamp ≤ e.stamp := by
  cases es with
  | nil => exact absurd rfl hne
  | cons e es =>
    refine oldestFrom_spec [e] es 0 e.stamp ⟨e, rfl, rfl, fun e' he' => ?_⟩
    rw [List.mem_singleton.1 he']
    exact UInt64.le_refl _

/-- An entry written over another of a list, up to order. -/
theorem set_perm_of_perm {α : Type*} {l w : List α} {a x : α} {i : ℕ} (ha : l[i]? = some a)
    (hperm : l.Perm (a :: w)) : (l.set i x).Perm (w ++ [x]) := by
  obtain ⟨hi, rfl⟩ := List.getElem?_eq_some_iff.1 ha
  have hold : (l[i] :: (l.take i ++ l.drop (i + 1))).Perm l := by
    refine List.perm_middle.symm.trans (.of_eq ?_)
    rw [List.getElem_cons_drop, List.take_append_drop]
  have hrest := (hold.trans hperm).cons_inv
  rw [List.set_eq_take_append_cons_drop, if_pos hi]
  exact List.perm_middle.trans ((hrest.cons x).trans (List.perm_append_singleton x w).symm)

end Oldest

/-! ## The window -/

/-- What these appends wrote, each under the stamp of its turn. -/
def stamped (rs : List RecordView) : List RecordLogEntry :=
  (rs.zipIdx 1).map fun p => entryOf p.1 (UInt64.ofNat p.2)

theorem length_stamped (rs : List RecordView) : (stamped rs).length = rs.length := by
  rw [stamped, List.length_map, List.length_zipIdx]

theorem stamped_concat (rs : List RecordView) (r : RecordView) :
    stamped (rs ++ [r]) = stamped rs ++ [entryOf r (UInt64.ofNat (rs.length + 1))] := by
  rw [stamped, List.zipIdx_append, List.map_append, Nat.add_comm 1]
  rfl

/-- What was written is of a record appended. -/
theorem cell_of_mem_stamped {rs : List RecordView} {e : RecordLogEntry} (h : e ∈ stamped rs) :
    ∃ r ∈ rs, (r.key, r.seq) = e.cell := by
  obtain ⟨p, hp, rfl⟩ := List.mem_map.1 h
  exact ⟨p.1, List.fst_mem_of_mem_zipIdx hp, rfl⟩

/-- Until the stamps have come round, a later append has a higher one. -/
theorem stamped_increasing {rs : List RecordView} (hn : rs.length < 2 ^ 64) :
    (stamped rs).Pairwise (fun a b => a.stamp < b.stamp) ∧
      ∀ e ∈ stamped rs, e.stamp.toNat ≤ rs.length := by
  induction rs using List.reverseRecOn with
  | nil => exact ⟨.nil, fun e he => absurd he List.not_mem_nil⟩
  | append_singleton rs r ih =>
    rw [List.length_append, List.length_singleton] at hn ⊢
    obtain ⟨hpair, hle⟩ := ih (by omega)
    have hlast : (entryOf r (UInt64.ofNat (rs.length + 1))).stamp.toNat = rs.length + 1 := by
      show (UInt64.ofNat (rs.length + 1)).toNat = _
      rw [UInt64.toNat_ofNat', Nat.mod_eq_of_lt hn]
    rw [stamped_concat]
    constructor
    · refine List.pairwise_append.2 ⟨hpair, List.pairwise_singleton _ _, fun a ha b hb => ?_⟩
      have hlow := hle a ha
      rw [List.mem_singleton.1 hb, UInt64.lt_iff_toNat_lt, hlast]
      omega
    · intro e he
      rcases List.mem_append.1 he with he | he
      · have hlow := hle e he
        omega
      · rw [List.mem_singleton.1 he, hlast]

/-- **The log holds the window of these appends**: the last of them that it has room for. -/
structure RecordLog.Window (l : RecordLog) (rs : List RecordView) : Prop where
  room : l.capacity ≠ 0
  entries : l.entries.Perm (newest l.capacity (fun _ => 1) (stamped rs))
  cells : (l.entries.map RecordLogEntry.cell).Nodup
  nextStamp : l.nextStamp = UInt64.ofNat (rs.length + 1)
  dropped : l.dropped + UInt64.ofNat l.entries.length = UInt64.ofNat rs.length

section Window

variable {l : RecordLog} {rs : List RecordView} {r : RecordView} {k : StreamKey} {seq : UInt64}
  {e : RecordLogEntry}

theorem window_init {capacity : ℕ} (h : recordLogInit capacity = .ok l) : l.Window [] := by
  unfold recordLogInit at h
  split_ifs at h with hzero
  obtain rfl := Except.ok.inj h
  exact ⟨hzero, .nil, .nil, rfl, rfl⟩

theorem RecordLog.Window.length (h : l.Window rs) : l.entries.length = min l.capacity rs.length := by
  rw [h.entries.length_eq, newest_one, List.length_drop, length_stamped]
  omega

theorem RecordLog.Window.usable (h : l.Window rs) : l.usable = true := by
  have hlen := h.length
  exact decide_eq_true ⟨h.room, by omega⟩

/-- A cell is held where an entry of it is. -/
theorem RecordLog.Window.find_iff (h : l.Window rs) :
    (∃ i, l.find k seq = some (i, e)) ↔ e ∈ l.entries ∧ e.cell = (k, seq) :=
  lastRow_iff_mem h.cells

/-- The window with an entry more. -/
theorem newest_one_concat {cap : ℕ} (es : List RecordLogEntry) (x : RecordLogEntry)
    (hcap : cap ≠ 0) : newest cap (fun _ => 1) (es ++ [x]) =
      (if es.length < cap then es else (newest cap (fun _ => 1) es).tail) ++ [x] := by
  rw [newest_one, newest_one, List.length_append, List.length_singleton]
  split_ifs with hroom
  · rw [Nat.sub_eq_zero_of_le hroom, List.drop_zero]
  · rw [List.drop_append_of_le_length (by omega), List.tail_drop]
    congr 2
    omega

/-- With no room the entry of the lowest stamp is written over. -/
theorem place_full {a x : RecordLogEntry} {w : List RecordLogEntry}
    (hfull : ¬l.entries.length < l.capacity) (hperm : l.entries.Perm (a :: w))
    (hlow : ∀ b ∈ w, a.stamp < b.stamp) : (l.place x).entries.Perm (w ++ [x]) := by
  have hne : l.entries ≠ [] := fun hnil => by
    rw [hnil] at hperm
    exact absurd hperm.symm.length_eq (Nat.succ_ne_zero _)
  obtain ⟨b, hb, hle⟩ := oldestPlace_spec hne
  have hba : b = a := by
    rcases List.mem_cons.1 (hperm.mem_iff.1 (List.mem_of_getElem? hb)) with rfl | hin
    · rfl
    · exact absurd (hlow b hin) (UInt64.not_lt.2 (hle a (hperm.mem_iff.2 List.mem_cons_self)))
  rw [hba] at hb
  rw [RecordLog.place, if_neg hfull]
  exact set_perm_of_perm hb hperm

/-- **An append taken moves the window by one**: with no room, the entry written over is the
one appended longest ago. -/
theorem window_place (h : l.Window rs) (hn : rs.length + 1 < 2 ^ 64)
    (hnew : l.find r.key r.seq = none) :
    ({ l.place (entryOf r l.nextStamp) with nextStamp := l.nextStamp + 1 } : RecordLog).Window
      (rs ++ [r]) := by
  have hlen := h.length
  have hcell : lastRow RecordLogEntry.cell (entryOf r l.nextStamp).cell l.entries = none := hnew
  have hnext : l.nextStamp + 1 = UInt64.ofNat ((rs ++ [r]).length + 1) := by
    rw [h.nextStamp, List.length_append, List.length_singleton, UInt64.ofNat_add (rs.length + 1)]
    rfl
  have hcount : UInt64.ofNat (rs ++ [r]).length = UInt64.ofNat rs.length + 1 := by
    rw [List.length_append, List.length_singleton, UInt64.ofNat_add]
    rfl
  have hwindow := newest_one_concat (stamped rs) (entryOf r l.nextStamp) h.room
  rw [length_stamped] at hwindow
  unfold RecordLog.place
  split_ifs with hroom
  · refine ⟨h.room, ?_, nodup_concat_of_lastRow h.cells hcell, hnext, ?_⟩
    · show (l.entries ++ [entryOf r l.nextStamp]).Perm
        (newest l.capacity (fun _ => 1) (stamped (rs ++ [r])))
      have hold := h.entries
      rw [newest_one, length_stamped, Nat.sub_eq_zero_of_le (by omega), List.drop_zero] at hold
      rw [stamped_concat, ← h.nextStamp, hwindow, if_pos (by omega)]
      exact hold.append_right _
    · show l.dropped + UInt64.ofNat (l.entries ++ [_]).length = _
      rw [hcount, ← h.dropped, List.length_append, List.length_singleton, UInt64.ofNat_add,
        UInt64.add_assoc]
      rfl
  · refine ⟨h.room, ?_, nodup_set_of_lastRow h.cells hcell _, hnext, ?_⟩
    · show (l.entries.set _ (entryOf r l.nextStamp)).Perm
        (newest l.capacity (fun _ => 1) (stamped (rs ++ [r])))
      rw [stamped_concat, ← h.nextStamp, hwindow, if_neg (by omega)]
      have hincreasing : (newest l.capacity (fun _ => 1) (stamped rs)).Pairwise
          fun a b => a.stamp < b.stamp :=
        (stamped_increasing (by omega)).1.sublist (newest_suffix _).sublist
      obtain ⟨a, w, haw⟩ : ∃ a w, newest l.capacity (fun _ => 1) (stamped rs) = a :: w :=
        List.exists_cons_of_ne_nil fun hnil => by
          have hpos := h.room
          have hperm := h.entries.length_eq
          rw [hnil, List.length_nil] at hperm
          omega
      have hperm := h.entries
      rw [haw] at hperm hincreasing ⊢
      have hplaced := place_full (x := entryOf r l.nextStamp) hroom hperm
        fun b hb => List.rel_of_pairwise_cons hincreasing hb
      rwa [RecordLog.place, if_neg hroom] at hplaced
    · show l.dropped + 1 + UInt64.ofNat (l.entries.set _ _).length = _
      rw [List.length_set, hcount, ← h.dropped, UInt64.add_assoc, UInt64.add_comm 1,
        UInt64.add_assoc]

/-- **A record still held is refused and changes nothing, and any other is taken.** -/
theorem recordLogAppend_cases (h : l.Window rs) (r : RecordView) :
    ((∃ e ∈ l.entries, e.cell = (r.key, r.seq)) ∧ recordLogAppend l r = (.duplicate, l)) ∨
      (l.find r.key r.seq = none ∧ recordLogAppend l r =
        (.ok, { l.place (entryOf r l.nextStamp) with nextStamp := l.nextStamp + 1 })) := by
  have hguard : ¬ (l.usable = false ∨ r.seq = 0) := by
    rw [h.usable, not_or]
    exact ⟨Bool.noConfusion, State.seq_ne_zero r⟩
  rw [recordLogAppend, if_neg hguard]
  cases hfind : l.find r.key r.seq with
  | none => exact Or.inr ⟨rfl, by rw [Option.isSome_none, if_neg Bool.false_ne_true]⟩
  | some p =>
    obtain ⟨i, e⟩ := p
    have hheld := h.find_iff.1 ⟨i, hfind⟩
    exact Or.inl ⟨⟨e, hheld.1, hheld.2⟩, by rw [Option.isSome_some, if_pos rfl]⟩

end Window

/-! ## Reading a stream -/

section Read

variable {es out : List RecordLogEntry} {k : StreamKey} {since taken : UInt64}
  {best e b : RecordLogEntry}

/-- An entry of the stream above a sequence. -/
def Above (k : StreamKey) (since : UInt64) (e : RecordLogEntry) : Prop := e.key = k ∧ since < e.seq

/-- What the scan has found among the entries it has passed. -/
theorem lowestAbove_spec (es : List RecordLogEntry) (k : StreamKey) (taken : UInt64) :
    match lowestAbove es k taken with
    | none => ∀ e ∈ es, ¬Above k taken e
    | some b => b ∈ es ∧ Above k taken b ∧ ∀ e ∈ es, Above k taken e → b.seq ≤ e.seq := by
  induction es using List.reverseRecOn with
  | nil => exact fun e he => absurd he List.not_mem_nil
  | append_singleton es x ih =>
    have hstep : lowestAbove (es ++ [x]) k taken =
        lowestTurn k taken (lowestAbove es k taken) x := by
      rw [lowestAbove, List.foldl_append]
      rfl
    rw [hstep]
    unfold lowestTurn
    by_cases hskip : x.seq ≤ taken ∨ x.key ≠ k
    · have hnot : ¬Above k taken x := fun h => hskip.elim (UInt64.not_le.2 h.2) fun hne => hne h.1
      rw [if_pos hskip]
      cases hfound : lowestAbove es k taken with
      | none =>
        rw [hfound] at ih
        intro e he
        rcases List.mem_append.1 he with he | he
        · exact ih e he
        · rwa [List.mem_singleton.1 he]
      | some b =>
        rw [hfound] at ih
        obtain ⟨hb, habove, hlow⟩ := ih
        refine ⟨List.mem_append_left _ hb, habove, fun e he hab => ?_⟩
        rcases List.mem_append.1 he with he | he
        · exact hlow e he hab
        · exact absurd (List.mem_singleton.1 he ▸ hab) hnot
    · rw [if_neg hskip]
      rw [not_or, not_not, UInt64.not_le] at hskip
      have hlast : x ∈ es ++ [x] := List.mem_append_right _ (List.mem_singleton_self x)
      cases hfound : lowestAbove es k taken with
      | none =>
        rw [hfound] at ih
        refine ⟨hlast, ⟨hskip.2, hskip.1⟩, fun e he hab => ?_⟩
        rcases List.mem_append.1 he with he | he
        · exact absurd hab (ih e he)
        · rw [List.mem_singleton.1 he]
          exact UInt64.le_refl _
      | some b =>
        rw [hfound] at ih
        obtain ⟨hb, habove, hlow⟩ := ih
        dsimp only
        split_ifs with hlt
        · refine ⟨hlast, ⟨hskip.2, hskip.1⟩, fun e he hab => ?_⟩
          rcases List.mem_append.1 he with he | he
          · exact UInt64.le_trans (UInt64.le_of_lt hlt) (hlow e he hab)
          · rw [List.mem_singleton.1 he]
            exact UInt64.le_refl _
        · refine ⟨List.mem_append_left _ hb, habove, fun e he hab => ?_⟩
          rcases List.mem_append.1 he with he | he
          · exact hlow e he hab
          · rw [List.mem_singleton.1 he]
            exact UInt64.not_lt.1 hlt

/-- **A read from `since` with room for `cap`**: entries of the stream above it, lowest first,
all of them or the lowest `cap`. -/
structure ReadsSince (es : List RecordLogEntry) (k : StreamKey) (since : UInt64) (cap : ℕ)
    (out : List RecordLogEntry) : Prop where
  ascending : out.Pairwise fun a b => a.seq < b.seq
  held : ∀ e ∈ out, e ∈ es ∧ Above k since e
  fits : out.length ≤ cap
  lowest : ∀ e ∈ es, Above k since e → e ∈ out ∨ out.length = cap ∧ ∀ x ∈ out, x.seq < e.seq

theorem readFrom_spec (hcells : (es.map RecordLogEntry.cell).Nodup) (k : StreamKey) (cap : ℕ)
    (since : UInt64) : ReadsSince es k since cap (readFrom es k cap since) := by
  induction cap generalizing since with
  | zero => exact ⟨.nil, fun e he => absurd he List.not_mem_nil, le_rfl, fun e _ _ =>
    Or.inr ⟨rfl, fun x hx => absurd hx List.not_mem_nil⟩⟩
  | succ cap ih =>
    have hspec := lowestAbove_spec es k since
    rw [readFrom]
    cases hfound : lowestAbove es k since with
    | none =>
      rw [hfound] at hspec
      exact ⟨.nil, fun e he => absurd he List.not_mem_nil, Nat.zero_le _,
        fun e he hab => absurd hab (hspec e he)⟩
    | some b =>
      rw [hfound] at hspec
      obtain ⟨hb, habove, hlow⟩ := hspec
      obtain ⟨hasc, hheld, hfits, hlowest⟩ := ih b.seq
      refine ⟨List.pairwise_cons.2 ⟨fun e he => (hheld e he).2.2, hasc⟩, fun e he => ?_,
        Nat.succ_le_succ hfits, fun e he hab => ?_⟩
      · rcases List.mem_cons.1 he with rfl | he
        · exact ⟨hb, habove⟩
        · obtain ⟨hes, hk, hlt⟩ := hheld e he
          exact ⟨hes, hk, UInt64.lt_trans habove.2 hlt⟩
      · rcases UInt64.lt_or_eq_of_le (hlow e he hab) with hlt | heq
        · rcases hlowest e he ⟨hab.1, hlt⟩ with hin | ⟨hfull, hbelow⟩
          · exact Or.inl (List.mem_cons_of_mem _ hin)
          · refine Or.inr ⟨by rw [List.length_cons, hfull], fun x hx => ?_⟩
            rcases List.mem_cons.1 hx with rfl | hx
            · exact hlt
            · exact hbelow x hx
        · have hsame : b.cell = e.cell := Prod.ext (habove.1.trans hab.1.symm) heq
          rw [List.inj_on_of_nodup_map hcells hb he hsame]
          exact Or.inl List.mem_cons_self

end Read

end Log
end Fuzznet
