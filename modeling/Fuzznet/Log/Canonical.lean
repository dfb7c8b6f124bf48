/-
# One record for an entry

A word stands in a record behind its length, and is kept as a C string.  An entry packed is
read back whole, from between 55 and 4672 bytes; a record unpacked is packed again to the same
bytes exactly where no word of it holds a NUL (`record_canonical`), which is where no other
such record unpacks to its entry.  A word with a NUL in it is accepted all the same, and what
is behind the NUL is lost (`record_not_canonical`).
-/

import Fuzznet.Log.Entry

namespace Fuzznet
namespace Log

open Wire

/-! ## The words a record lays out -/

/-- The word behind a length byte, whole, and what is behind it. -/
def layWord : Bytes → Bytes × Bytes
  | [] => ([], [])
  | n :: bs => (bs.take n.toNat, bs.drop n.toNat)

/-- The two words of a name, and what is behind the name. -/
def layName (bs : Bytes) : List Bytes × Bytes :=
  let user := layWord (bs.drop 16)
  let program := layWord user.2
  ([user.1, program.1], program.2.drop 20)

/-- Every word of a record, whole. -/
def recordWords (bs : Bytes) : List Bytes :=
  let name := layName (bs.drop 10)
  let subsystem := layWord name.2
  name.1 ++ subsystem.1 ::
    if subsystem.2.head? = some 2 then
      let cause := layName subsystem.2.tail
      cause.1 ++ (layName cause.2).1
    else []

/-- No word among these holds a NUL. -/
def NoNul (ws : List Bytes) : Prop := ∀ w ∈ ws, 0 ∉ w

section Laid

variable {n raw : EntryName} {e : Entry} {w : Bytes}

theorem layWord_putWord (h : WordFits w) (rest : Bytes) : layWord (putWord w ++ rest) = (w, rest) := by
  have hlen := h.2
  rw [wordMax] at hlen
  have hn : (UInt8.ofNat w.length).toNat = w.length := by
    rw [UInt8.toNat_ofNat']
    omega
  rw [putWord, List.cons_append, layWord, hn, List.take_left, List.drop_left]

theorem layName_putName (h : n.Fits) (rest : Bytes) :
    layName (putName n ++ rest) = (n.words, rest) := by
  have hnumbers : (putBe 4 n.pid.toNat ++ (putBe 8 n.startMs.toNat ++
      (putBe 8 n.position.toNat ++ rest))).drop 20 = rest := by
    rw [← List.append_assoc, ← List.append_assoc]
    exact List.drop_left' (by simp only [List.length_append, length_putBe])
  rw [layName, putName]
  simp only [List.append_assoc]
  rw [List.drop_left' (length_putBe _ _), layWord_putWord h.1, layWord_putWord h.2, hnumbers]
  rfl

theorem recordWords_entryBytes (h : e.Fits) : recordWords (entryBytes e) = e.words := by
  rw [recordWords, entryBytes, List.drop_succ_cons, List.drop_succ_cons,
    List.drop_left' (length_putBe _ _), layName_putName h.name, layWord_putWord h.subsystem,
    Entry.words]
  cases hcaused : e.caused with
  | none => rfl
  | some c =>
    obtain ⟨hcause, horigin⟩ := h.caused c hcaused
    rw [putCaused, List.cons_append, List.head?_cons, if_pos rfl, List.tail_cons,
      List.append_assoc, layName_putName hcause]
    dsimp only
    rw [layName_putName horigin, Option.elim_some]

/-! ## What is cut -/

theorem length_cString_le (w : Bytes) : (cString w).length ≤ w.length :=
  ( cString_prefix w).length_le

theorem cString_of_length (h : w.length ≤ (cString w).length) : 0 ∉ w :=
  cString_eq_self_iff.1 (( cString_prefix w).eq_of_length_le h)

theorem nameSize_cut_le (n : EntryName) : nameSize n.cut ≤ nameSize n := by
  have hu := length_cString_le n.user
  have hp := length_cString_le n.program
  show 16 + 1 + (cString n.user).length + 1 + (cString n.program).length + 4 + 8 + 8 ≤ nameSize n
  rw [nameSize]
  omega

theorem noNul_of_nameSize_cut (h : nameSize n ≤ nameSize n.cut) : NoNul n.words := by
  have hu := length_cString_le n.user
  have hp := length_cString_le n.program
  have h : nameSize n ≤
    16 + 1 + (cString n.user).length + 1 + (cString n.program).length + 4 + 8 + 8 := h
  rw [nameSize] at h
  intro w hw
  rcases List.mem_cons.1 hw with rfl | hw
  · exact cString_of_length (by omega)
  · obtain rfl := List.mem_singleton.1 hw
    exact cString_of_length (by omega)

theorem cut_of_noNul (h : NoNul n.words) : n.cut = n := by
  have huser := cString_of_not_mem (h n.user List.mem_cons_self)
  have hprogram := cString_of_not_mem (h n.program (List.mem_cons_of_mem _ List.mem_cons_self))
  rw [EntryName.cut, huser, hprogram]

/-- **A name is packed as it was laid out where no word of it was cut.** -/
theorem putName_cut_iff : putName n.cut = putName n ↔ NoNul n.words := by
  refine ⟨fun h => noNul_of_nameSize_cut ?_, fun h => by rw [cut_of_noNul h]⟩
  rw [← length_putName, ← length_putName, h]

theorem noNul_words_iff : NoNul e.words ↔ NoNul e.name.words ∧ 0 ∉ e.subsystem ∧
    ∀ c ∈ e.caused, NoNul c.1.words ∧ NoNul c.2.words := by
  constructor
  · intro h
    refine ⟨fun w hw => h w (List.mem_append_left _ hw),
      h _ (List.mem_append_right _ List.mem_cons_self), fun c hc => ?_⟩
    have hin : ∀ w ∈ c.1.words ++ c.2.words, 0 ∉ w := fun w hw =>
      h w (List.mem_append_right _ (List.mem_cons_of_mem _ (by rwa [hc, Option.elim_some])))
    exact ⟨fun w hw => hin w (List.mem_append_left _ hw),
      fun w hw => hin w (List.mem_append_right _ hw)⟩
  · rintro ⟨hname, hsubsystem, hcaused⟩ w hw
    rw [Entry.words, List.mem_append, List.mem_cons] at hw
    rcases hw with hw | rfl | hw
    · exact hname w hw
    · exact hsubsystem
    · cases hc : e.caused with
      | none =>
        rw [hc] at hw
        exact absurd hw List.not_mem_nil
      | some c =>
        rw [hc, Option.elim_some, List.mem_append] at hw
        exact hw.elim ((hcaused c hc).1 w) ((hcaused c hc).2 w)

theorem entry_cut_of_noNul (h : NoNul e.words) : e.cut = e := by
  obtain ⟨hname, hsubsystem, hcaused⟩ := noNul_words_iff.1 h
  have hcut : (e.caused.map fun c => (c.1.cut, c.2.cut)) = e.caused := by
    cases hc : e.caused with
    | none => rfl
    | some c =>
      rw [Option.map_some, cut_of_noNul (hcaused c hc).1, cut_of_noNul (hcaused c hc).2]
  rw [Entry.cut, cut_of_noNul hname, cString_of_not_mem hsubsystem, hcut]

theorem noNul_of_recordSize_cut (h : recordSize e ≤ recordSize e.cut) : NoNul e.words := by
  have hname := nameSize_cut_le e.name
  have hsubsystem := length_cString_le e.subsystem
  rw [recordSize, recordSize, Entry.cut] at h
  cases hcaused : e.caused with
  | none =>
    rw [hcaused] at h
    simp only [Option.map_none, Option.elim_none] at h
    exact noNul_words_iff.2 ⟨noNul_of_nameSize_cut (by omega), cString_of_length (by omega),
      fun c hc => (by rw [hcaused] at hc; cases hc)⟩
  | some c =>
    have hcause := nameSize_cut_le c.1
    have horigin := nameSize_cut_le c.2
    rw [hcaused] at h
    simp only [Option.map_some, Option.elim_some] at h
    refine noNul_words_iff.2 ⟨noNul_of_nameSize_cut (by omega), cString_of_length (by omega),
      fun c' hc => ?_⟩
    obtain rfl := Option.some.inj (hcaused.symm.trans hc)
    exact ⟨noNul_of_nameSize_cut (by omega), noNul_of_nameSize_cut (by omega)⟩

/-- **An entry is packed as it was laid out where no word of it was cut.** -/
theorem entryBytes_cut_iff : entryBytes e.cut = entryBytes e ↔ NoNul e.words := by
  refine ⟨fun h => noNul_of_recordSize_cut ?_, fun h => by rw [entry_cut_of_noNul h]⟩
  rw [← length_entryBytes, ← length_entryBytes, h]

end Laid

/-! ## Packing and unpacking -/

section Pack

variable {e : Entry} {n : EntryName} {bs rest : Bytes} {cap used : ℕ}

/-- What packs is what is right and has room. -/
theorem pack_eq_ok_iff {ok : Bool} {size : ℕ} {bytes : Bytes} :
    (if ok = false then .error EntryErr.malformed else if cap < size then .error .room else .ok bytes) =
      Except.ok bs ↔ ok = true ∧ size ≤ cap ∧ bytes = bs := by
  split_ifs with hok hroom
  · rw [hok]
    exact ⟨fun h => (by cases h), fun h => (by cases h.1)⟩
  · exact ⟨fun h => (by cases h), fun h => absurd h.2.1 (Nat.not_le.2 hroom)⟩
  · rw [Except.ok.injEq]
    exact ⟨fun h => ⟨Bool.not_eq_false _ ▸ hok, Nat.not_lt.1 hroom, h⟩, fun h => h.2.2⟩

theorem entryPack_eq_ok_iff : entryPack e cap = .ok bs ↔
    entryOk e = true ∧ recordSize e ≤ cap ∧ entryBytes e = bs := pack_eq_ok_iff

theorem entryNamePack_eq_ok_iff : entryNamePack n cap = .ok bs ↔
    nameOk n = true ∧ nameSize n ≤ cap ∧ putName n = bs := pack_eq_ok_iff

theorem fits_of_nameOk (h : nameOk n = true) : n.Fits := by
  rw [nameOk, Bool.and_eq_true] at h
  exact ⟨length_of_isWord h.1, length_of_isWord h.2⟩

theorem noNul_of_nameOk (h : nameOk n = true) : NoNul n.words := by
  rw [nameOk, Bool.and_eq_true] at h
  intro w hw
  rcases List.mem_cons.1 hw with rfl | hw
  · exact wordKept_zero (isWord_wordKept h.1)
  · obtain rfl := List.mem_singleton.1 hw
    exact wordKept_zero (isWord_wordKept h.2)

theorem fits_of_entryOk (h : entryOk e = true) : e.Fits := by
  rw [entryOk, Bool.and_eq_true, Bool.and_eq_true, Bool.and_eq_true, decide_eq_true_eq,
    Option.all_eq_true] at h
  obtain ⟨⟨⟨hname, hsubsystem⟩, htext⟩, hcaused⟩ := h
  refine ⟨fits_of_nameOk hname, length_of_isSubsystem hsubsystem, fun c hc => ?_, htext⟩
  have hok := hcaused c hc
  rw [Bool.and_eq_true] at hok
  exact ⟨fits_of_nameOk hok.1, fits_of_nameOk hok.2⟩

theorem noNul_of_entryOk (h : entryOk e = true) : NoNul e.words := by
  rw [entryOk, Bool.and_eq_true, Bool.and_eq_true, Bool.and_eq_true, Option.all_eq_true] at h
  obtain ⟨⟨⟨hname, hsubsystem⟩, -⟩, hcaused⟩ := h
  refine noNul_words_iff.2 ⟨noNul_of_nameOk hname,
    wordKept_zero (isSubsystem_wordKept hsubsystem), fun c hc => ?_⟩
  have hok := hcaused c hc
  rw [Bool.and_eq_true] at hok
  exact ⟨noNul_of_nameOk hok.1, noNul_of_nameOk hok.2⟩

/-- **An entry packed is read back whole.** -/
theorem entryUnpack_of_pack (h : entryPack e cap = .ok bs) : entryUnpack bs = some e := by
  obtain ⟨hok, -, rfl⟩ := entryPack_eq_ok_iff.1 h
  exact entryUnpack_eq_some_iff.2
    ⟨e, fits_of_entryOk hok, rfl, entry_cut_of_noNul (noNul_of_entryOk hok), hok⟩

theorem nameUnpack_of_pack (h : entryNamePack n cap = .ok bs) (rest : Bytes) :
    entryNameUnpack (bs ++ rest) = some (n, bs.length) := by
  obtain ⟨hok, -, rfl⟩ := entryNamePack_eq_ok_iff.1 h
  have htaken : takeName (putName n ++ rest) = some (n, rest) := takeName_eq_some_iff.2
    ⟨n, fits_of_nameOk hok, rfl, cut_of_noNul (noNul_of_nameOk hok), hok⟩
  rw [entryNameUnpack, htaken, Option.map_some, List.length_append, Nat.add_sub_cancel]

/-- **A record unpacked is packed to the same bytes where no word of it holds a NUL.** -/
theorem entryPack_unpack_iff (h : entryUnpack bs = some e) (hcap : bs.length ≤ cap) :
    entryPack e cap = .ok bs ↔ NoNul (recordWords bs) := by
  obtain ⟨raw, hfits, rfl, rfl, hok⟩ := entryUnpack_eq_some_iff.1 h
  rw [recordWords_entryBytes hfits, ← entryBytes_cut_iff, entryPack_eq_ok_iff]
  refine ⟨fun h => h.2.2, fun h => ⟨hok, ?_, h⟩⟩
  rwa [← length_entryBytes, h]

theorem namePack_unpack_iff (h : entryNameUnpack bs = some (n, used)) (hcap : used ≤ cap) :
    entryNamePack n cap = .ok (bs.take used) ↔ NoNul (layName bs).1 := by
  obtain ⟨⟨m, rest⟩, htaken, heq⟩ := Option.map_eq_some_iff.1 h
  obtain ⟨rfl, rfl⟩ := Prod.mk.inj heq
  obtain ⟨raw, hfits, rfl, rfl, hok⟩ := takeName_eq_some_iff.1 htaken
  dsimp only at hcap ⊢
  rw [List.length_append, Nat.add_sub_cancel] at hcap ⊢
  rw [List.take_left, layName_putName hfits, ← putName_cut_iff, entryNamePack_eq_ok_iff]
  refine ⟨fun h => h.2.2, fun h => ⟨hok, ?_, h⟩⟩
  rwa [← length_putName, h]

end Pack

/-- **The record is one for one with the entry where its words hold no NUL.**  What is packed
is within the bounds of a record and is read back whole; what is unpacked is packed again to
the same bytes exactly where none of its words holds a NUL, and then no other such record
unpacks to the same entry.  A name's record on its own, from the front of a longer text, is
the same. -/
theorem record_canonical (cap : ℕ) :
    (∀ e bs, entryPack e cap = .ok bs →
      recordMin ≤ bs.length ∧ bs.length ≤ recordMax ∧ entryUnpack bs = some e) ∧
    (∀ n bs, entryNamePack n cap = .ok bs →
      ∀ rest, entryNameUnpack (bs ++ rest) = some (n, bs.length)) ∧
    (∀ bs e, entryUnpack bs = some e → bs.length ≤ cap →
      (entryPack e cap = .ok bs ↔ NoNul (recordWords bs))) ∧
    (∀ bs n used, entryNameUnpack bs = some (n, used) → used ≤ cap →
      (entryNamePack n cap = .ok (bs.take used) ↔ NoNul (layName bs).1)) ∧
    ∀ bs bs' e, entryUnpack bs = some e → entryUnpack bs' = some e →
      NoNul (recordWords bs) → NoNul (recordWords bs') → bs = bs' := by
  refine ⟨fun e bs h => ?_, fun _ _ h => nameUnpack_of_pack h,
    fun _ _ h hcap => entryPack_unpack_iff h hcap, fun _ _ _ h hcap =>
    namePack_unpack_iff h hcap, fun bs bs' e h h' hno hno' => ?_⟩
  · obtain ⟨hok, -, rfl⟩ := entryPack_eq_ok_iff.1 h
    obtain ⟨hmin, hmax⟩ := recordSize_of_fits (fits_of_entryOk hok)
    rw [length_entryBytes]
    exact ⟨hmin, hmax, entryUnpack_of_pack h⟩
  · have hpack := (entryPack_unpack_iff h (Nat.le_add_right _ bs'.length)).2 hno
    have hpack' := (entryPack_unpack_iff h' (Nat.le_add_left _ bs.length)).2 hno'
    exact Except.ok.inj (hpack.symm.trans hpack')

/-- An entry of a user. -/
def userEntry (user : Bytes) : Entry :=
  ⟨⟨0, user, [112], 0, 0, 0⟩, 0, .info, [115], none, []⟩

/-- A record of a user of three bytes. -/
def userRecord (a b c : UInt8) : Bytes :=
  [1, 5] ++ List.replicate 24 0 ++ [3, a, b, c, 1, 112] ++ List.replicate 20 0 ++
    [1, 115, 0, 0, 0]

/-- **A NUL inside a word is accepted and what is behind it is lost**: the records of the
users `a`, NUL, `b` and `a`, NUL, `c` unpack to one entry, which packs to neither. -/
theorem record_not_canonical :
    ¬ ((∀ bs e, entryUnpack bs = some e → entryPack e recordMax = .ok bs) ∨
      ∀ bs bs' e, entryUnpack bs = some e → entryUnpack bs' = some e → bs = bs') := by
  have hread : entryUnpack (userRecord 97 0 98) = some (userEntry [97]) := by decide +kernel
  have hread' : entryUnpack (userRecord 97 0 99) = some (userEntry [97]) := by decide +kernel
  rintro (hall | hall)
  · have hpack : entryPack (userEntry [97]) recordMax = .ok (entryBytes (userEntry [97])) := rfl
    have hone := hall _ _ hread
    rw [hpack] at hone
    exact absurd (congrArg List.length (Except.ok.inj hone)) (by decide)
  · exact absurd (hall _ _ _ hread hread') (by decide)

end Log
end Fuzznet
