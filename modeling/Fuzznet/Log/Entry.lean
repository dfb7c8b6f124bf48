/-
# The entry and its record

`fzn_entry_t` of `log/entry.h`, and the performant record of `log/entry.c` that carries one:

    version | level | time 8 | name | subsystem | count | count names | text length 2 | text

A name is its machine, two words and three numbers, and a word stands behind its length.  What
a record lays out is an entry whose words are still whole (`entryUnpack_eq_some_iff`); the
entry unpacked is that one with every word cut at its first NUL (`Entry.cut`).  So an entry
packed is read back as it was (`entryUnpack_of_pack`), and a record unpacked is packed again
to the same bytes where no word of it holds a NUL, and only there (`entryPack_unpack_iff`).
The record of a name alone is read and written the same way.
-/

import Fuzznet.Log.Words
import Fuzznet.Wire.Codec

namespace Fuzznet
namespace Log

open Wire

/-! ## The entry -/

/-- `fzn_entry_level_t`. -/
inductive EntryLevel
  | critical
  | error
  | warning
  | note
  | info
  | verbose
  | debug
  | trace
  deriving DecidableEq, Repr

/-- `fzn_entry_name_t`. -/
structure EntryName where
  machine : Machine
  user : Bytes
  program : Bytes
  pid : UInt32
  startMs : UInt64
  position : UInt64
  deriving DecidableEq, Repr

/-- `fzn_entry_t`; `caused` is the cause and the origin of an entry that has them. -/
structure Entry where
  name : EntryName
  timeUs : UInt64
  level : EntryLevel
  subsystem : Bytes
  caused : Option (EntryName × EntryName)
  text : Bytes
  deriving DecidableEq, Repr

/-- `fzn_entry_err_t`. -/
inductive EntryErr
  | malformed
  | room
  deriving DecidableEq, Repr

/-- `FZN_ENTRY_TEXT_MAX`. -/
def textMax : ℕ := 4096

/-- `FZN_ENTRY_RECORD_VERSION`. -/
def recordVersion : UInt8 := 1

/-- `FZN_ENTRY_RECORD_MIN`. -/
def recordMin : ℕ := 55

/-- `FZN_ENTRY_RECORD_MAX`. -/
def recordMax : ℕ := 4672

/-- The number of a level. -/
def EntryLevel.number : EntryLevel → UInt8
  | .critical => 1
  | .error => 2
  | .warning => 3
  | .note => 4
  | .info => 5
  | .verbose => 6
  | .debug => 7
  | .trace => 8

/-- The level of a number from `FZN_ENTRY_CRITICAL` to `FZN_ENTRY_TRACE`. -/
def levelOfNumber : UInt8 → Option EntryLevel
  | 1 => some .critical
  | 2 => some .error
  | 3 => some .warning
  | 4 => some .note
  | 5 => some .info
  | 6 => some .verbose
  | 7 => some .debug
  | 8 => some .trace
  | _ => none

theorem levelOfNumber_number (l : EntryLevel) : levelOfNumber l.number = some l := by
  cases l <;> rfl

theorem number_of_levelOfNumber {b : UInt8} {l : EntryLevel} (h : levelOfNumber b = some l) :
    l.number = b := by
  unfold levelOfNumber at h
  split at h <;> cases h <;> rfl

/-- `name_ok`. -/
def nameOk (n : EntryName) : Bool := isWord n.user wordMax && isWord n.program wordMax

/-- What `fzn_entry_pack` asks of an entry. -/
def entryOk (e : Entry) : Bool :=
  nameOk e.name && isSubsystem e.subsystem && decide (e.text.length ≤ textMax) &&
    e.caused.all fun c => nameOk c.1 && nameOk c.2

/-! ## Writing a record -/

/-- `name_size`. -/
def nameSize (n : EntryName) : ℕ := 16 + 1 + n.user.length + 1 + n.program.length + 4 + 8 + 8

/-- A word behind its length. -/
def putWord (w : Bytes) : Bytes := UInt8.ofNat w.length :: w

/-- `put_name`. -/
def putName (n : EntryName) : Bytes :=
  putBe 16 n.machine.toNat ++ (putWord n.user ++ (putWord n.program ++
    (putBe 4 n.pid.toNat ++ (putBe 8 n.startMs.toNat ++ putBe 8 n.position.toNat))))

/-- How many names stand behind the subsystem, and those. -/
def putCaused : Option (EntryName × EntryName) → Bytes
  | none => [0]
  | some c => 2 :: (putName c.1 ++ putName c.2)

/-- The bytes `fzn_entry_pack` writes. -/
def entryBytes (e : Entry) : Bytes :=
  recordVersion :: e.level.number :: (putBe 8 e.timeUs.toNat ++ (putName e.name ++
    (putWord e.subsystem ++ (putCaused e.caused ++ (putBe 2 e.text.length ++ e.text)))))

/-- What `fzn_entry_pack` needs. -/
def recordSize (e : Entry) : ℕ :=
  1 + 1 + 8 + nameSize e.name + 1 + e.subsystem.length + 1 +
    (e.caused.elim 0 fun c => nameSize c.1 + nameSize c.2) + 2 + e.text.length

/-- `fzn_entry_pack` into `cap` bytes. -/
def entryPack (e : Entry) (cap : ℕ) : Except EntryErr Bytes :=
  if entryOk e = false then .error .malformed
  else if cap < recordSize e then .error .room
  else .ok (entryBytes e)

/-- `fzn_entry_name_pack` into `cap` bytes. -/
def entryNamePack (n : EntryName) (cap : ℕ) : Except EntryErr Bytes :=
  if nameOk n = false then .error .malformed
  else if cap < nameSize n then .error .room
  else .ok (putName n)

/-! ## Reading one -/

/-- `take_word`: the word, and what is behind it. -/
def takeWord (bs : Bytes) (max : ℕ) (subsystem : Bool) : Option (Bytes × Bytes) :=
  match bs with
  | [] => none
  | n :: bs =>
    if bs.length < n.toNat then none
    else (copyWord (bs.take n.toNat) max subsystem).map fun w => (w, bs.drop n.toNat)

/-- `take_name`: the name, and what is behind it. -/
def takeName (bs : Bytes) : Option (EntryName × Bytes) :=
  if bs.length < 16 then none
  else do
    let (user, rest) ← takeWord (bs.drop 16) wordMax false
    let (program, rest) ← takeWord rest wordMax false
    if rest.length < 20 then none
    else some ({ machine := BitVec.ofNat (8 * 16) (getBe bs 0 16)
                 user := user
                 program := program
                 pid := UInt32.ofNat (getBe rest 0 4)
                 startMs := UInt64.ofNat (getBe rest 4 8)
                 position := UInt64.ofNat (getBe rest 12 8) }, rest.drop 20)

/-- The cause and the origin: none, or both. -/
def takeCaused : Bytes → Option (Option (EntryName × EntryName) × Bytes)
  | [] => none
  | n :: rest =>
    if n = 2 then do
      let (cause, rest) ← takeName rest
      let (origin, rest) ← takeName rest
      some (some (cause, origin), rest)
    else if n = 0 then some (none, rest)
    else none

/-- The text is the rest, as long as its length says. -/
def takeText (bs : Bytes) : Option Bytes :=
  if bs.length < 2 then none
  else if textMax < getBe bs 0 2 ∨ (bs.drop 2).length ≠ getBe bs 0 2 then none
  else some (bs.drop 2)

/-- `fzn_entry_unpack`: none is `FZN_ENTRY_ERR_MALFORMED`. -/
def entryUnpack (bs : Bytes) : Option Entry :=
  if bs.length < recordMin ∨ recordMax < bs.length ∨ bs.getD 0 0 ≠ recordVersion then none
  else do
    let level ← levelOfNumber (bs.getD 1 0)
    let (name, rest) ← takeName (bs.drop 10)
    let (subsystem, rest) ← takeWord rest subsystemMax true
    let (caused, rest) ← takeCaused rest
    let text ← takeText rest
    some { name := name
           timeUs := UInt64.ofNat (getBe bs 2 8)
           level := level
           subsystem := subsystem
           caused := caused
           text := text }

/-- `fzn_entry_name_unpack`: a name from the front, and how many bytes it was. -/
def entryNameUnpack (bs : Bytes) : Option (EntryName × ℕ) :=
  (takeName bs).map fun r => (r.1, bs.length - r.2.length)

/-! ## A name laid out -/

/-- The name with each word cut at its first NUL. -/
def EntryName.cut (n : EntryName) : EntryName :=
  { n with user := cString n.user, program := cString n.program }

/-- The words of a name. -/
def EntryName.words (n : EntryName) : List Bytes := [n.user, n.program]

/-- A word that has a length byte and a place in an entry. -/
def WordFits (w : Bytes) : Prop := 0 < w.length ∧ w.length ≤ wordMax

/-- Both words have. -/
def EntryName.Fits (n : EntryName) : Prop := WordFits n.user ∧ WordFits n.program

section Name

variable {n raw : EntryName} {bs rest w : Bytes} {max : ℕ} {subsystem : Bool}

theorem length_putName (n : EntryName) : (putName n).length = nameSize n := by
  simp only [putName, putWord, nameSize, List.length_append, List.length_cons, length_putBe]
  omega

theorem takeWord_putWord (hlen : w.length < 256) (rest : Bytes) :
    takeWord (putWord w ++ rest) max subsystem =
      (copyWord w max subsystem).map fun v => (v, rest) := by
  have hn : (UInt8.ofNat w.length).toNat = w.length := by
    rw [UInt8.toNat_ofNat']
    omega
  rw [putWord, List.cons_append, takeWord, hn, List.take_left, List.drop_left,
    if_neg (by rw [List.length_append]; omega)]

/-- **A word is taken from behind its length.** -/
theorem takeWord_eq_some_iff (hmax : max < 256) : takeWord bs max subsystem = some (w, rest) ↔
    ∃ raw, bs = putWord raw ++ rest ∧ copyWord raw max subsystem = some w := by
  constructor
  · intro h
    match bs, h with
    | n :: bs, h =>
      rw [takeWord] at h
      split_ifs at h with hlen
      obtain ⟨v, hv, heq⟩ := Option.map_eq_some_iff.1 h
      obtain ⟨rfl, rfl⟩ := Prod.mk.inj heq
      refine ⟨bs.take n.toNat, ?_, hv⟩
      rw [putWord, List.length_take, Nat.min_eq_left (by omega), UInt8.ofNat_toNat,
        List.cons_append, List.take_append_drop]
  · rintro ⟨raw, rfl, hcopy⟩
    have hlen := (copyWord_eq_some_iff.1 hcopy).2.1
    rw [takeWord_putWord (by omega), hcopy, Option.map_some]

/-- A plain word is kept from one that fits. -/
theorem copyWord_false {raw : Bytes} : copyWord raw wordMax false = some w ↔
    WordFits raw ∧ cString raw = w ∧ isWord w wordMax = true := by
  rw [copyWord_eq_some_iff, WordFits, and_assoc]
  rfl

/-- **A name is taken where one is laid out**, and its words are cut. -/
theorem takeName_eq_some_iff : takeName bs = some (n, rest) ↔
    ∃ raw : EntryName, raw.Fits ∧ bs = putName raw ++ rest ∧ raw.cut = n ∧ nameOk n = true := by
  constructor
  · intro h
    unfold takeName at h
    split_ifs at h with hlen
    rw [Option.bind_eq_bind, Option.bind_eq_some_iff] at h
    obtain ⟨⟨user, r⟩, huser, h⟩ := h
    dsimp only at h
    rw [Option.bind_eq_some_iff] at h
    obtain ⟨⟨program, r'⟩, hprogram, h⟩ := h
    dsimp only at h
    split_ifs at h with htail
    obtain ⟨rfl, rfl⟩ := Prod.mk.inj (Option.some.inj h)
    obtain ⟨u, hu, hcut⟩ := (takeWord_eq_some_iff (by decide)).1 huser
    obtain ⟨p, hp, hcut'⟩ := (takeWord_eq_some_iff (by decide)).1 hprogram
    obtain ⟨hfits, hcut, hok⟩ := copyWord_false.1 hcut
    obtain ⟨hfits', hcut', hok'⟩ := copyWord_false.1 hcut'
    refine ⟨⟨BitVec.ofNat (8 * 16) (getBe bs 0 16), u, p, UInt32.ofNat (getBe r' 0 4),
      UInt64.ofNat (getBe r' 4 8), UInt64.ofNat (getBe r' 12 8)⟩, ⟨hfits, hfits'⟩, ?_, ?_, ?_⟩
    · have hmachine := putBe_getBe_append bs 0 16 (by omega)
      have hpid := putBe_getBe_append r' 0 4 (by omega)
      have hstart := putBe_getBe_append r' 4 8 (by omega)
      have hposition := putBe_getBe_append r' 12 8 (by omega)
      rw [List.drop_zero] at hmachine hpid
      rw [putName, BitVec.toNat_ofNat, Nat.mod_eq_of_lt (lt_of_lt_of_le (getBe_lt bs 0 16) (by
        norm_num)), UInt32.toNat_ofNat', Nat.mod_eq_of_lt (lt_of_lt_of_le (getBe_lt r' 0 4) (by
        norm_num)), UInt64.toNat_ofNat', Nat.mod_eq_of_lt (lt_of_lt_of_le (getBe_lt r' 4 8) (by
        norm_num)), UInt64.toNat_ofNat', Nat.mod_eq_of_lt (lt_of_lt_of_le (getBe_lt r' 12 8) (by
        norm_num))]
      simp only [List.append_assoc]
      rw [hposition, hstart, hpid, ← hp, ← hu, hmachine]
    · rw [EntryName.cut, hcut, hcut']
    · rw [nameOk, hok, hok', Bool.and_self]
  · rintro ⟨raw, hfits, rfl, rfl, hok⟩
    rw [nameOk, Bool.and_eq_true] at hok
    have huser : copyWord raw.user wordMax false = some (cString raw.user) :=
      copyWord_false.2 ⟨hfits.1, rfl, hok.1⟩
    have hprogram : copyWord raw.program wordMax false = some (cString raw.program) :=
      copyWord_false.2 ⟨hfits.2, rfl, hok.2⟩
    have hlong := length_putName raw
    have hmachine : raw.machine.toNat < 256 ^ 16 := toNat_lt_be raw.machine
    have hpid : raw.pid.toNat < 256 ^ 4 := lt_of_lt_of_le raw.pid.toNat_lt (by norm_num)
    have hstart := toNat_lt_be64 raw.startMs
    have hposition := toNat_lt_be64 raw.position
    have hw := hfits.1.2
    have hw' := hfits.2.2
    rw [wordMax] at hw hw'
    unfold takeName
    rw [if_neg (by rw [List.length_append, hlong, nameSize]; omega), putName]
    simp only [List.append_assoc]
    rw [List.drop_left' (length_putBe _ _), Option.bind_eq_bind,
      takeWord_putWord (by omega), huser, Option.map_some, Option.bind_some]
    dsimp only
    rw [takeWord_putWord (by omega), hprogram, Option.map_some, Option.bind_some]
    dsimp only
    rw [if_neg (by simp only [List.length_append, length_putBe]; omega)]
    simp (disch := omega) only [getBe_skip, Nat.reduceSub, getBe_putBe_of_lt, BitVec.ofNat_toNat,
      BitVec.setWidth_eq, UInt32.ofNat_toNat, UInt64.ofNat_toNat]
    rw [← List.append_assoc, ← List.append_assoc, List.drop_left' (by
      simp only [List.length_append, length_putBe])]
    rfl

end Name

/-! ## A record laid out -/

/-- The entry with each of its words cut at its first NUL. -/
def Entry.cut (e : Entry) : Entry :=
  { e with
    name := e.name.cut
    subsystem := cString e.subsystem
    caused := e.caused.map fun c => (c.1.cut, c.2.cut) }

/-- The words of an entry. -/
def Entry.words (e : Entry) : List Bytes :=
  e.name.words ++ e.subsystem :: e.caused.elim [] fun c => c.1.words ++ c.2.words

/-- Every word and the text have a place in a record. -/
structure Entry.Fits (e : Entry) : Prop where
  name : e.name.Fits
  subsystem : WordFits e.subsystem
  caused : ∀ c ∈ e.caused, c.1.Fits ∧ c.2.Fits
  text : e.text.length ≤ textMax

section Record

variable {e raw : Entry} {bs rest t : Bytes} {c : Option (EntryName × EntryName)}

theorem takeCaused_eq_some_iff : takeCaused bs = some (c, rest) ↔
    ∃ raw : Option (EntryName × EntryName), (∀ c ∈ raw, c.1.Fits ∧ c.2.Fits) ∧
      bs = putCaused raw ++ rest ∧ (raw.map fun c => (c.1.cut, c.2.cut)) = c ∧
      (c.all fun c => nameOk c.1 && nameOk c.2) = true := by
  constructor
  · intro h
    match bs, h with
    | n :: bs, h =>
      rw [takeCaused] at h
      split_ifs at h with htwo hzero
      · subst htwo
        rw [Option.bind_eq_bind, Option.bind_eq_some_iff] at h
        obtain ⟨⟨cause, r⟩, hcause, h⟩ := h
        dsimp only at h
        rw [Option.bind_eq_some_iff] at h
        obtain ⟨⟨origin, r'⟩, horigin, h⟩ := h
        obtain ⟨rfl, rfl⟩ := Prod.mk.inj (Option.some.inj h)
        obtain ⟨raw, hfits, rfl, hcut, hok⟩ := takeName_eq_some_iff.1 hcause
        obtain ⟨raw', hfits', rfl, hcut', hok'⟩ := takeName_eq_some_iff.1 horigin
        refine ⟨some (raw, raw'), ?_, ?_, ?_, ?_⟩
        · rintro _ ⟨⟩
          exact ⟨hfits, hfits'⟩
        · rw [putCaused, List.cons_append, List.append_assoc]
        · rw [Option.map_some, hcut, hcut']
        · rw [Option.all_some, hok, hok', Bool.and_self]
      · subst hzero
        obtain ⟨rfl, rfl⟩ := Prod.mk.inj (Option.some.inj h)
        exact ⟨none, fun c hc => (by cases hc), rfl, rfl, rfl⟩
  · rintro ⟨raw, hfits, rfl, rfl, hok⟩
    cases raw with
    | none => rfl
    | some raw =>
      obtain ⟨hcause, horigin⟩ := hfits raw rfl
      rw [Option.map_some, Option.all_some, Bool.and_eq_true] at hok
      rw [putCaused, List.cons_append, takeCaused, if_pos rfl, List.append_assoc,
        Option.bind_eq_bind, takeName_eq_some_iff.2 ⟨raw.1, hcause, rfl, rfl, hok.1⟩,
        Option.bind_some]
      dsimp only
      rw [takeName_eq_some_iff.2 ⟨raw.2, horigin, rfl, rfl, hok.2⟩, Option.bind_some]
      rfl

theorem takeText_eq_some_iff : takeText bs = some t ↔
    bs = putBe 2 t.length ++ t ∧ t.length ≤ textMax := by
  constructor
  · intro h
    unfold takeText at h
    split_ifs at h with hshort hlong
    obtain rfl := Option.some.inj h
    rw [not_or, not_not, not_lt] at hlong
    have hread := putBe_getBe_append bs 0 2 (by omega)
    rw [List.drop_zero] at hread
    rw [hlong.2]
    exact ⟨hread.symm, hlong.1⟩
  · rintro ⟨rfl, hlen⟩
    rw [textMax] at hlen
    have hdrop : (putBe 2 t.length ++ t).drop 2 = t := List.drop_left' (length_putBe _ _)
    unfold takeText
    rw [if_neg (by rw [List.length_append, length_putBe]; omega),
      getBe_putBe_of_lt t (by omega), hdrop, if_neg (by rw [textMax]; omega)]

theorem length_putCaused (c : Option (EntryName × EntryName)) :
    (putCaused c).length = 1 + c.elim 0 fun c => nameSize c.1 + nameSize c.2 := by
  cases c with
  | none => rfl
  | some c =>
    rw [putCaused, List.length_cons, List.length_append, length_putName, length_putName,
      Option.elim_some]
    omega

/-- `need` of `fzn_entry_pack` is what it writes. -/
theorem length_entryBytes (e : Entry) : (entryBytes e).length = recordSize e := by
  simp only [entryBytes, putWord, recordSize, List.length_append, List.length_cons, length_putBe,
    length_putName, length_putCaused]
  omega

theorem nameSize_of_fits {n : EntryName} (h : n.Fits) : 40 ≤ nameSize n ∧ nameSize n ≤ 166 := by
  obtain ⟨⟨hu, hu'⟩, hp, hp'⟩ := h
  rw [wordMax] at hu' hp'
  rw [nameSize]
  omega

/-- **The bounds of a record** are those of the shortest words with no text and of the
longest with a full one. -/
theorem recordSize_of_fits (h : e.Fits) : recordMin ≤ recordSize e ∧ recordSize e ≤ recordMax := by
  obtain ⟨hn, hn'⟩ := nameSize_of_fits h.name
  obtain ⟨hs, hs'⟩ := h.subsystem
  have ht := h.text
  rw [wordMax] at hs'
  rw [textMax] at ht
  rw [recordSize, recordMin, recordMax]
  cases hcaused : e.caused with
  | none =>
    rw [Option.elim_none]
    omega
  | some c =>
    obtain ⟨hc, hc'⟩ := nameSize_of_fits (h.caused c hcaused).1
    obtain ⟨ho, ho'⟩ := nameSize_of_fits (h.caused c hcaused).2
    rw [Option.elim_some]
    omega

/-- **A record is unpacked where one is laid out**, and the words of the entry are cut. -/
theorem entryUnpack_eq_some_iff : entryUnpack bs = some e ↔
    ∃ raw : Entry, raw.Fits ∧ bs = entryBytes raw ∧ raw.cut = e ∧ entryOk e = true := by
  constructor
  · intro h
    unfold entryUnpack at h
    split_ifs at h with hhead
    rw [not_or, not_or, not_lt, not_lt, not_not] at hhead
    obtain ⟨hmin, hmax, hversion⟩ := hhead
    simp only [Option.bind_eq_bind] at h
    rw [Option.bind_eq_some_iff] at h
    obtain ⟨level, hlevel, h⟩ := h
    rw [Option.bind_eq_some_iff] at h
    obtain ⟨⟨name, r⟩, hname, h⟩ := h
    dsimp only at h
    rw [Option.bind_eq_some_iff] at h
    obtain ⟨⟨subsystem, r'⟩, hsubsystem, h⟩ := h
    dsimp only at h
    rw [Option.bind_eq_some_iff] at h
    obtain ⟨⟨caused, r''⟩, hcaused, h⟩ := h
    dsimp only at h
    rw [Option.bind_eq_some_iff] at h
    obtain ⟨text, htext, h⟩ := h
    obtain rfl := Option.some.inj h
    obtain ⟨n, hnfits, hn, hncut, hnok⟩ := takeName_eq_some_iff.1 hname
    obtain ⟨s, hs, hscopy⟩ := (takeWord_eq_some_iff (by decide)).1 hsubsystem
    obtain ⟨hspos, hslen, hscut, hsok⟩ := copyWord_eq_some_iff.1 hscopy
    obtain ⟨c, hcfits, hc, hccut, hcok⟩ := takeCaused_eq_some_iff.1 hcaused
    obtain ⟨ht, htlen⟩ := takeText_eq_some_iff.1 htext
    refine ⟨⟨n, UInt64.ofNat (getBe bs 2 8), level, s, c, text⟩,
      ⟨hnfits, ⟨hspos, hslen⟩, hcfits, htlen⟩, ?_, ?_, ?_⟩
    · rw [recordMin] at hmin
      have htime := putBe_getBe_append bs 2 8 (by omega)
      have hnumber := number_of_levelOfNumber hlevel
      match bs, hmin with
      | v :: l :: bs, _ =>
        rw [List.getD_cons_zero] at hversion
        rw [List.getD_cons_succ, List.getD_cons_zero] at hnumber
        rw [entryBytes, hnumber, ← hversion, UInt64.toNat_ofNat', Nat.mod_eq_of_lt
          (lt_of_lt_of_le (getBe_lt (v :: l :: bs) 2 8) (by norm_num)), ← ht, ← hc, ← hs, ← hn,
          htime, List.drop_succ_cons, List.drop_succ_cons, List.drop_zero]
    · rw [Entry.cut, hncut, hscut, hccut]
    · have hsok : isSubsystem subsystem = true := hsok
      have htlen : decide (text.length ≤ textMax) = true := decide_eq_true htlen
      rw [entryOk, hnok, hsok, htlen, hcok]
      rfl
  · rintro ⟨raw, hfits, rfl, rfl, hok⟩
    obtain ⟨hmin, hmax⟩ := recordSize_of_fits hfits
    rw [entryOk, Bool.and_eq_true, Bool.and_eq_true, Bool.and_eq_true] at hok
    obtain ⟨⟨⟨hnok, hsok⟩, -⟩, hcok⟩ := hok
    have hs := hfits.subsystem
    have hword : takeWord (putWord raw.subsystem ++
        (putCaused raw.caused ++ (putBe 2 raw.text.length ++ raw.text))) subsystemMax true =
        some (cString raw.subsystem,
          putCaused raw.caused ++ (putBe 2 raw.text.length ++ raw.text)) :=
      (takeWord_eq_some_iff (by decide)).2 ⟨raw.subsystem, rfl,
        copyWord_eq_some_iff.2 ⟨hs.1, hs.2, rfl, hsok⟩⟩
    have htime : getBe (entryBytes raw) 2 8 = raw.timeUs.toNat :=
      getBe_putBe_of_lt _ (toNat_lt_be64 raw.timeUs)
    have hdrop : (entryBytes raw).drop 10 = putName raw.name ++ (putWord raw.subsystem ++
        (putCaused raw.caused ++ (putBe 2 raw.text.length ++ raw.text))) := by
      rw [entryBytes, List.drop_succ_cons, List.drop_succ_cons, List.drop_left' (length_putBe _ _)]
    unfold entryUnpack
    simp only [Option.bind_eq_bind]
    rw [length_entryBytes, if_neg (by
        rw [not_or, not_or, not_lt, not_lt, not_not]
        exact ⟨hmin, hmax, rfl⟩), hdrop, htime]
    rw [entryBytes, List.getD_cons_succ, List.getD_cons_zero, levelOfNumber_number,
      Option.bind_some,
      takeName_eq_some_iff.2 ⟨raw.name, hfits.name, rfl, rfl, hnok⟩, Option.bind_some]
    dsimp only
    rw [hword, Option.bind_some]
    dsimp only
    rw [takeCaused_eq_some_iff.2 ⟨raw.caused, hfits.caused, rfl, rfl, hcok⟩, Option.bind_some]
    dsimp only
    rw [takeText_eq_some_iff.2 ⟨rfl, hfits.text⟩, Option.bind_some, UInt64.ofNat_toNat]
    rfl

end Record

end Log
end Fuzznet
