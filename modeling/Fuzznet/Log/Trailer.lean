/-
# The trailer of a packed segment

`log/pack.h` and the trailer half of `log/pack.c`.  A packed segment ends in one line that
chains it to the segment before:

    #fuzznet-log-trailer 1 prev=HEX hash=HEX
    #fuzznet-log-trailer 2 prev=HEX hash=HEX was=HEX dropped=N

each with ` key=HEX sig=HEX` behind when the packer signs.  The second kind is a segment
repacked without some of its lines; the segment behind it still names the hash it was first
packed with (`carried`).

A line written is read back (`parseTrailer_line`).  A line read has its only `#` in front
and its only newline at the end, and is shorter than the window a reader keeps for it
(`parseTrailer_some`): a line with anything before the `#` is no trailer.
-/

import Fuzznet.Lib.Text
import Fuzznet.Wire.Codec

namespace Fuzznet
namespace Log

open Wire Lib

/-- `'\n'`. -/
def newline : UInt8 := 10

/-- `FZN_LOG_PACK_TRAILER_MAX`. -/
def trailerMax : ℕ := 576

/-- `SIG_SUFFIX_LEN`. -/
def sigSuffixLen : ℕ := 202

/-- What a version 2 trailer says of the segment it was. -/
structure Repacked where
  was : Bytes32
  dropped : UInt64
  deriving DecidableEq

/-- `trailer_t`; `repacked` is none for version 1, and `base` the line before a signature. -/
structure Trailer where
  prev : Bytes32
  hash : Bytes32
  repacked : Option Repacked
  sig : Option (Key × Sig)
  base : Bytes
  deriving DecidableEq

/-- What the next segment's prev names: the hash as first packed. -/
def carried (tr : Trailer) : Bytes32 :=
  match tr.repacked with
  | none => tr.hash
  | some r => r.was

/-! ## Writing one -/

/-- `to_hex` of an `n`-byte value. -/
def hexOf (n : ℕ) (v : BitVec (8 * n)) : Bytes := toHex (putBe n v.toNat)

def headWord1 : Bytes := ascii "#fuzznet-log-trailer 1 prev="
def headWord2 : Bytes := ascii "#fuzznet-log-trailer 2 prev="
def hashWord : Bytes := ascii " hash="
def wasWord : Bytes := ascii " was="
def droppedWord : Bytes := ascii " dropped="
def keyWord : Bytes := ascii " key="
def sigWord : Bytes := ascii " sig="

/-- A trailer's fields as text, the count of dropped lines in the digits given. -/
def fieldText (prev hash : Bytes32) (repacked : Option Bytes32) (digits : Bytes) : Bytes :=
  match repacked with
  | none => headWord1 ++ hexOf 32 prev ++ hashWord ++ hexOf 32 hash
  | some was => headWord2 ++ hexOf 32 prev ++ hashWord ++ hexOf 32 hash ++ wasWord ++
      hexOf 32 was ++ droppedWord ++ digits

/-- The line before any signature. -/
def trailerBase (prev hash : Bytes32) (repacked : Option Repacked) : Bytes :=
  fieldText prev hash (repacked.map Repacked.was)
    ((repacked.map fun r => decimal r.dropped.toNat).getD [])

/-- What a signature adds to the line. -/
def sigSuffix : Option (Key × Sig) → Bytes
  | none => []
  | some (key, sig) => keyWord ++ hexOf 32 key ++ sigWord ++ hexOf 64 sig

/-- `SIG_LABEL` with its NUL, and the line: what a trailer's signature covers. -/
def signedText (base : Bytes) : Bytes := ascii "fuzznet.log.trailer" ++ [0] ++ base

/-- `fzn_log_pack_signer_t`. -/
structure Signer where
  key : Key
  sign : SignOps

/-- `sign_line`: the signature a line gets, none for a line written unsigned. -/
def signLine (signer : Option Signer) (base : Bytes) : Option (Option (Key × Sig)) :=
  match signer with
  | none => some none
  | some s => (s.sign.sign (signedText base)).map fun sig => some (s.key, sig)

/-! ## Reading one -/

/-- `from_hex` into `n` bytes. -/
def readHex (n : ℕ) (t : Bytes) : Option (BitVec (8 * n)) :=
  (fromHex n t).map fun bs => BitVec.ofNat (8 * n) (getBe bs 0 n)

/-- The text behind a word it has to begin with. -/
def expect (w t : Bytes) : Option Bytes := if w.isPrefixOf t then some (t.drop w.length) else none

/-- The version's word, and whether it is the second. -/
def parseVersion (t : Bytes) : Option (Bool × Bytes) :=
  match expect headWord1 t with
  | some t => some (false, t)
  | none => (expect headWord2 t).map fun t => (true, t)

/-- `parse_base`: the line before any signature, its newline behind it. -/
def parseBase (t : Bytes) (sig : Option (Key × Sig)) (base : Bytes) : Option Trailer :=
  if t.length < 163 ∨ t.getLast? ≠ some newline then none
  else do
    let (repacked, t) ← parseVersion t
    let prev ← readHex 32 t
    let t ← expect hashWord (t.drop 64)
    let hash ← readHex 32 t
    let t := t.drop 64
    if repacked = false then
      if t.length = 1 then some ⟨prev, hash, none, sig, base⟩ else none
    else
      let t ← expect wasWord t
      let was ← readHex 32 t
      let t ← expect droppedWord (t.drop 64)
      let digits := t.dropLast
      if 20 < digits.length ∨ digits.length = 0 then none
      else
        let dropped ← fromDecimal (2 ^ 64 - 1) digits
        some ⟨prev, hash, some ⟨was, UInt64.ofNat dropped⟩, sig, base⟩

/-- `parse_trailer`: a line with its newline, of either version, signed or not. -/
def parseTrailer (t : Bytes) : Option Trailer :=
  if t.length < 2 ∨ trailerMax < t.length ∨ t.getLast? ≠ some newline then none
  else
    match findSub keyWord t with
    | none => parseBase t none t.dropLast
    | some k =>
      if k + sigSuffixLen ≠ t.length - 1 then none
      else do
        let key ← readHex 32 (t.drop (k + 5))
        let _ ← expect sigWord (t.drop (k + 69))
        let sig ← readHex 64 (t.drop (k + 74))
        parseBase (t.take k ++ [newline]) (some (key, sig)) (t.take k)

/-! ## Hex values -/

@[simp] theorem length_hexOf (n : ℕ) (v : BitVec (8 * n)) : (hexOf n v).length = 2 * n := by
  simp [hexOf]

theorem readHex_hexOf {n : ℕ} (v : BitVec (8 * n)) (rest : Bytes) :
    readHex n (hexOf n v ++ rest) = some v := by
  have hread := fromHex_toHex (putBe n v.toNat) rest
  rw [length_putBe] at hread
  have hvalue : getBe (putBe n v.toNat) 0 n = v.toNat := by
    simpa using getBe_putBe_of_lt [] (toNat_lt_be v)
  rw [readHex, hexOf, hread, Option.map_some, hvalue, BitVec.ofNat_toNat, BitVec.setWidth_eq]

theorem eq_hexOf_of_readHex {n : ℕ} {t : Bytes} {v : BitVec (8 * n)} (h : readHex n t = some v) :
    t = hexOf n v ++ t.drop (2 * n) := by
  obtain ⟨bs, hbs, rfl⟩ := Option.map_eq_some_iff.1 h
  obtain ⟨hlen, ht⟩ := eq_toHex_of_fromHex hbs
  have hlt : getBe bs 0 n < 2 ^ (8 * n) := by
    have := getBe_lt bs 0 n
    rwa [show 256 ^ n = 2 ^ (8 * n) by rw [pow_mul]; rfl] at this
  have hput : putBe n (getBe bs 0 n) = bs := by
    rw [putBe_getBe (by omega), List.drop_zero, List.take_of_length_le (by omega)]
  rwa [hexOf, BitVec.toNat_ofNat, Nat.mod_eq_of_lt hlt, hput]

theorem isHex_of_mem_hexOf {n : ℕ} {v : BitVec (8 * n)} {c : UInt8} (h : c ∈ hexOf n v) :
    IsHex c := isHex_of_mem_toHex h

theorem expect_append (w t : Bytes) : expect w (w ++ t) = some t := by
  rw [expect, if_pos (List.isPrefixOf_iff_prefix.2 (List.prefix_append w t)), List.drop_left]

theorem eq_of_expect {w t rest : Bytes} (h : expect w t = some rest) : t = w ++ rest := by
  unfold expect at h
  split at h
  next hpre =>
    obtain rfl := Option.some.inj h
    exact (List.prefix_iff_eq_append.1 (List.isPrefixOf_iff_prefix.1 hpre)).symm
  next => cases h

theorem expect_ne {w w' t : Bytes} (hlen : w.length = w'.length) (hne : w ≠ w') :
    expect w (w' ++ t) = none := by
  unfold expect
  refine if_neg fun hpre => hne ?_
  have hle : w <+: w' := List.prefix_of_prefix_length_le (List.isPrefixOf_iff_prefix.1 hpre)
    (List.prefix_append w' t) hlen.le
  exact hle.eq_of_length hlen

/-! ## A line written is read back -/

/-- No signature begins within a text, whatever stands behind it. -/
def Unsigned (w : Bytes) : Prop :=
  ∀ rest, findSub keyWord (w ++ rest) = (findSub keyWord rest).map (· + w.length)

theorem Unsigned.append {a b : Bytes} (ha : Unsigned a) (hb : Unsigned b) : Unsigned (a ++ b) := by
  intro rest
  rw [List.append_assoc, ha, hb, Option.map_map, List.length_append]
  congr 1
  funext k
  simp only [Function.comp_apply]
  omega

theorem unsigned_of_not_mem {w : Bytes} (h : (32 : UInt8) ∉ w) : Unsigned w :=
  fun _ => findSub_append h

/-- A space in front of anything but a `k` begins no signature. -/
theorem unsigned_space {b : UInt8} {w : Bytes} (hb : b ≠ 107) (h : (32 : UInt8) ∉ b :: w) :
    Unsigned (32 :: b :: w) := by
  intro rest
  have hne : ((107 : UInt8) == b) = false := by simpa using hb.symm
  have hpre : keyWord.isPrefixOf (32 :: b :: (w ++ rest)) = false := by
    show (((32 : UInt8) == 32) && ((107 == b) && _)) = false
    rw [hne, Bool.false_and, Bool.and_false]
  show findSub keyWord (32 :: b :: (w ++ rest)) = _
  rw [findSub, hpre, if_neg (by simp)]
  have htail := @findSub_append 32 (ascii "key=") (b :: w) rest h
  rw [List.cons_append] at htail
  show (findSub (32 :: ascii "key=") (b :: (w ++ rest))).map (· + 1) = _
  rw [htail, Option.map_map]
  rfl

theorem unsigned_hexOf (n : ℕ) (v : BitVec (8 * n)) : Unsigned (hexOf n v) :=
  unsigned_of_not_mem fun h => (isHex_of_mem_hexOf h).ne (by decide) rfl

theorem unsigned_headWord1 : Unsigned headWord1 :=
  ((unsigned_of_not_mem (w := ascii "#fuzznet-log-trailer") (by decide)).append
    (unsigned_space (b := 49) (w := []) (by decide) (by decide))).append
    (unsigned_space (b := 112) (w := ascii "rev=") (by decide) (by decide))

theorem unsigned_headWord2 : Unsigned headWord2 :=
  ((unsigned_of_not_mem (w := ascii "#fuzznet-log-trailer") (by decide)).append
    (unsigned_space (b := 50) (w := []) (by decide) (by decide))).append
    (unsigned_space (b := 112) (w := ascii "rev=") (by decide) (by decide))

theorem unsigned_decimal (n : ℕ) : Unsigned (decimal n) := by
  refine unsigned_of_not_mem fun h => ?_
  have hdigit := isDigit_of_mem_decimal h
  rw [IsDigit] at hdigit
  exact absurd hdigit.1 (by decide)

theorem unsigned_trailerBase (prev hash : Bytes32) (r : Option Repacked) :
    Unsigned (trailerBase prev hash r) := by
  have hhash : Unsigned hashWord := unsigned_space (b := 104) (w := ascii "ash=") (by decide)
    (by decide)
  have hwas : Unsigned wasWord := unsigned_space (b := 119) (w := ascii "as=") (by decide)
    (by decide)
  have hdropped : Unsigned droppedWord :=
    unsigned_space (b := 100) (w := ascii "ropped=") (by decide) (by decide)
  cases r with
  | none =>
    exact ((unsigned_headWord1.append (unsigned_hexOf 32 prev)).append hhash).append
      (unsigned_hexOf 32 hash)
  | some r =>
    exact ((((((unsigned_headWord2.append (unsigned_hexOf 32 prev)).append hhash).append
      (unsigned_hexOf 32 hash)).append hwas).append (unsigned_hexOf 32 r.was)).append
      hdropped).append (unsigned_decimal _)

theorem length_headWord1 : headWord1.length = 28 := by decide

theorem length_headWord2 : headWord2.length = 28 := by decide

theorem length_trailerBase (prev hash : Bytes32) (r : Option Repacked) :
    162 ≤ (trailerBase prev hash r).length ∧ (trailerBase prev hash r).length ≤ 260 := by
  have hhash : hashWord.length = 6 := by decide
  have hwas : wasWord.length = 5 := by decide
  have hdropped : droppedWord.length = 9 := by decide
  cases r with
  | none =>
    simp only [trailerBase, fieldText, Option.map_none, List.length_append, length_headWord1,
      length_hexOf, hhash]
    omega
  | some r =>
    have hdigits := length_decimal_le (n := r.dropped.toNat) (k := 19)
      (by have := r.dropped.toNat_lt; omega)
    simp only [trailerBase, fieldText, Option.map_some, List.length_append, length_headWord2,
      length_hexOf, hhash, hwas, hdropped, Option.getD_some]
    omega

theorem drop_hexOf (n : ℕ) (v : BitVec (8 * n)) (rest : Bytes) :
    (hexOf n v ++ rest).drop (2 * n) = rest := by
  rw [List.drop_append_of_le_length (by simp), List.drop_of_length_le (by simp), List.nil_append]

theorem parseBase_base (prev hash : Bytes32) (r : Option Repacked) (sig : Option (Key × Sig))
    (base : Bytes) : parseBase (trailerBase prev hash r ++ [newline]) sig base =
      some ⟨prev, hash, r, sig, base⟩ := by
  have hlen := (length_trailerBase prev hash r).1
  have hdrop := fun (v : Bytes32) rest => drop_hexOf 32 v rest
  unfold parseBase
  rw [if_neg (by simp; omega)]
  cases r with
  | none =>
    simp only [trailerBase, fieldText, Option.map_none, List.append_assoc, parseVersion,
      expect_append, Option.bind_eq_bind, Option.bind_some, readHex_hexOf, hdrop]
    simp
  | some r =>
    have hne : expect headWord1 (headWord2 ++ (hexOf 32 prev ++ (hashWord ++ (hexOf 32 hash ++
        (wasWord ++ (hexOf 32 r.was ++ (droppedWord ++ (decimal r.dropped.toNat ++
          [newline])))))))) = none := expect_ne (by decide) (by decide)
    have hdigits := length_decimal_le (n := r.dropped.toNat) (k := 19)
      (by have := r.dropped.toNat_lt; omega)
    have hread : fromDecimal (2 ^ 64 - 1) (decimal r.dropped.toNat) = some r.dropped.toNat :=
      fromDecimal_decimal (by have := r.dropped.toNat_lt; omega)
    simp only [trailerBase, fieldText, Option.map_some, List.append_assoc, parseVersion,
      Option.getD_some, hne, expect_append, Option.bind_eq_bind, Option.bind_some, readHex_hexOf,
      hdrop, List.dropLast_concat, hread]
    rw [if_neg (by decide), if_neg]
    · simp
    · rw [List.length_eq_zero_iff]
      exact not_or.2 ⟨by omega, decimal_ne_nil _⟩

theorem length_sigSuffix (sig : Key × Sig) : (sigSuffix (some sig)).length = sigSuffixLen := by
  have hkey : keyWord.length = 5 := by decide
  have hsig : sigWord.length = 5 := by decide
  simp [sigSuffix, hkey, hsig, sigSuffixLen]

/-- **A trailer written is read back.** -/
theorem parseTrailer_line (prev hash : Bytes32) (r : Option Repacked) (sig : Option (Key × Sig)) :
    parseTrailer (trailerBase prev hash r ++ sigSuffix sig ++ [newline]) =
      some ⟨prev, hash, r, sig, trailerBase prev hash r⟩ := by
  have hlen := length_trailerBase prev hash r
  have hsuffix : (sigSuffix sig).length ≤ sigSuffixLen := by
    cases sig with
    | none => exact Nat.zero_le _
    | some sig => exact (length_sigSuffix sig).le
  unfold parseTrailer
  rw [if_neg (by simp [trailerMax]; simp only [sigSuffixLen] at hsuffix; omega)]
  have hfind := unsigned_trailerBase prev hash r (sigSuffix sig ++ [newline])
  rw [← List.append_assoc] at hfind
  rw [hfind]
  cases sig with
  | none =>
    have hnone : findSub keyWord (sigSuffix none ++ [newline]) = none := by decide
    rw [hnone, Option.map_none, sigSuffix, List.append_nil, List.dropLast_concat]
    exact parseBase_base prev hash r none _
  | some s =>
    obtain ⟨key, sig⟩ := s
    have hkey : keyWord.length = 5 := by decide
    have hsig : sigWord.length = 5 := by decide
    have hzero : findSub keyWord (sigSuffix (some (key, sig)) ++ [newline]) = some 0 := by
      rw [sigSuffix, List.append_assoc, List.append_assoc, List.append_assoc]
      show findSub keyWord (32 :: (ascii "key=" ++ _)) = some 0
      rw [findSub, if_pos]
      exact List.isPrefixOf_iff_prefix.2 (List.prefix_append keyWord _)
    generalize hbase : trailerBase prev hash r = base
    have hat : ∀ n, (base ++ sigSuffix (some (key, sig)) ++ [newline]).drop (base.length + n) =
        (keyWord ++ (hexOf 32 key ++ (sigWord ++ (hexOf 64 sig ++ [newline])))).drop n := by
      intro n
      rw [List.append_assoc, ← List.drop_drop, List.drop_left]
      simp only [sigSuffix, List.append_assoc]
    have h₅ : (keyWord ++ (hexOf 32 key ++ (sigWord ++ (hexOf 64 sig ++ [newline])))).drop 5 =
        hexOf 32 key ++ (sigWord ++ (hexOf 64 sig ++ [newline])) := by
      rw [← hkey, List.drop_left]
    have h₆₉ : (keyWord ++ (hexOf 32 key ++ (sigWord ++ (hexOf 64 sig ++ [newline])))).drop 69 =
        sigWord ++ (hexOf 64 sig ++ [newline]) := by
      rw [show 69 = 5 + 2 * 32 from rfl, ← List.drop_drop, h₅]
      exact drop_hexOf 32 key _
    have h₇₄ : (keyWord ++ (hexOf 32 key ++ (sigWord ++ (hexOf 64 sig ++ [newline])))).drop 74 =
        hexOf 64 sig ++ [newline] := by
      rw [show 74 = 69 + 5 from rfl, ← List.drop_drop, h₆₉, ← hsig, List.drop_left]
    rw [hzero, Option.map_some, Nat.zero_add]
    have htotal := length_sigSuffix (key, sig)
    dsimp only
    rw [if_neg (by simp; omega), hat, hat, hat, h₅, h₆₉, h₇₄, readHex_hexOf, expect_append,
      readHex_hexOf, List.append_assoc, List.take_left, ← hbase]
    exact parseBase_base prev hash r (some (key, sig)) _

/-! ## What a line read looks like -/

/-- A byte that stands behind the `#` and before the newline. -/
def Inside (c : UInt8) : Prop := c ≠ 35 ∧ c ≠ newline

theorem inside_hexOf {n : ℕ} {v : BitVec (8 * n)} {c : UInt8} (h : c ∈ hexOf n v) : Inside c :=
  ⟨(isHex_of_mem_hexOf h).ne (by decide), (isHex_of_mem_hexOf h).ne (by decide)⟩

theorem inside_digit {c : UInt8} (h : IsDigit c) : Inside c := by
  refine ⟨?_, ?_⟩ <;>
  · rintro rfl
    exact absurd h.1 (by decide)

theorem inside_word {w : Bytes} (h : (35 : UInt8) ∉ w ∧ newline ∉ w) : ∀ c ∈ w, Inside c := by
  intro c hc
  constructor
  · rintro rfl
    exact h.1 hc
  · rintro rfl
    exact h.2 hc

/-- A text of the fields is a `#` and bytes that are neither a `#` nor a newline. -/
theorem fieldText_inside (prev hash : Bytes32) (r : Option Bytes32) {digits : Bytes}
    (hdigits : ∀ c ∈ digits, IsDigit c) (hlen : digits.length ≤ 20) :
    ∃ w, fieldText prev hash r digits = 35 :: w ∧ (∀ c ∈ w, Inside c) ∧ w.length < 260 := by
  have hhash := inside_word (w := hashWord) (by decide)
  have hhashLen : hashWord.length = 6 := by decide
  cases r with
  | none =>
    refine ⟨headWord1.tail ++ hexOf 32 prev ++ hashWord ++ hexOf 32 hash, rfl, ?_, ?_⟩
    · have hhead := inside_word (w := headWord1.tail) (by decide)
      intro c hc
      simp only [List.mem_append] at hc
      obtain ((hc | hc) | hc) | hc := hc
      exacts [hhead c hc, inside_hexOf hc, hhash c hc, inside_hexOf hc]
    · simp [length_headWord1, hhashLen]
  | some was =>
    have hwasLen : wasWord.length = 5 := by decide
    have hdroppedLen : droppedWord.length = 9 := by decide
    refine ⟨headWord2.tail ++ hexOf 32 prev ++ hashWord ++ hexOf 32 hash ++ wasWord ++
      hexOf 32 was ++ droppedWord ++ digits, rfl, ?_, ?_⟩
    · have hhead := inside_word (w := headWord2.tail) (by decide)
      have hwas := inside_word (w := wasWord) (by decide)
      have hdropped := inside_word (w := droppedWord) (by decide)
      intro c hc
      simp only [List.mem_append] at hc
      obtain ((((((hc | hc) | hc) | hc) | hc) | hc) | hc) | hc := hc
      exacts [hhead c hc, inside_hexOf hc, hhash c hc, inside_hexOf hc, hwas c hc,
        inside_hexOf hc, hdropped c hc, inside_digit (hdigits c hc)]
    · simp [length_headWord2, hhashLen, hwasLen, hdroppedLen]
      omega

theorem eq_of_parseVersion {t rest : Bytes} {repacked : Bool}
    (h : parseVersion t = some (repacked, rest)) :
    t = (if repacked then headWord2 else headWord1) ++ rest := by
  unfold parseVersion at h
  split at h
  next u hu =>
    obtain ⟨rfl, rfl⟩ := Prod.mk.inj (Option.some.inj h)
    exact eq_of_expect hu
  next =>
    obtain ⟨u, hu, heq⟩ := Option.map_eq_some_iff.1 h
    obtain ⟨rfl, rfl⟩ := Prod.mk.inj heq
    exact eq_of_expect hu

theorem eq_dropLast_concat {t : Bytes} {c : UInt8} (h : t.getLast? = some c) :
    t = t.dropLast ++ [c] := by
  obtain ⟨ys, rfl⟩ := List.getLast?_eq_some_iff.1 h
  rw [List.dropLast_concat]

theorem parseBase_some {t base : Bytes} {sig : Option (Key × Sig)} {tr : Trailer}
    (h : parseBase t sig base = some tr) : ∃ digits, (∀ c ∈ digits, IsDigit c) ∧
      digits.length ≤ 20 ∧
      t = fieldText tr.prev tr.hash (tr.repacked.map Repacked.was) digits ++ [newline] := by
  unfold parseBase at h
  obtain ⟨hends, h⟩ := past_check h nofun
  have hlast : t.getLast? = some newline := by
    by_contra hne
    exact hends (Or.inr hne)
  simp only [Option.bind_eq_bind, Option.bind_eq_some_iff] at h
  obtain ⟨⟨repacked, t₁⟩, h₁, prev, hprev, t₂, h₂, hash, hhash, h⟩ := h
  have ht : t = (if repacked then headWord2 else headWord1) ++ (hexOf 32 prev ++
      (hashWord ++ (hexOf 32 hash ++ t₂.drop 64))) := by
    have e₁ := eq_hexOf_of_readHex hprev
    have e₂ := eq_hexOf_of_readHex hhash
    rw [show 2 * 32 = 64 from rfl] at e₁ e₂
    rw [← e₂, ← eq_of_expect h₂, ← e₁]
    exact eq_of_parseVersion h₁
  split at h
  next hv =>
    subst hv
    split at h
    next hlen =>
      obtain rfl := Option.some.inj h
      obtain ⟨c, hc⟩ := List.length_eq_one_iff.1 hlen
      refine ⟨[], by simp, by simp, ?_⟩
      have hnl : c = newline := by
        rw [ht, hc] at hlast
        simpa using hlast
      rw [ht, hc, hnl]
      simp [fieldText]
    next => cases h
  next hv =>
    obtain rfl : repacked = true := by simpa using hv
    simp only [Option.bind_eq_some_iff] at h
    obtain ⟨t₃, h₃, was, hwas, t₄, h₄, h⟩ := h
    obtain ⟨hcount, h⟩ := past_check h nofun
    obtain ⟨hle, hpos⟩ := not_or.1 hcount
    rw [Option.bind_eq_some_iff] at h
    obtain ⟨dropped, hdropped, heq⟩ := h
    obtain rfl := Option.some.inj heq
    refine ⟨t₄.dropLast, (fromDecimal_some (by decide) hdropped).1, by omega, ?_⟩
    have hne : t₄ ≠ [] := by
      rintro rfl
      exact hpos rfl
    have e₃ := eq_hexOf_of_readHex hwas
    rw [show 2 * 32 = 64 from rfl] at e₃
    rw [eq_of_expect h₃, e₃, eq_of_expect h₄] at ht
    have hnl : t₄ = t₄.dropLast ++ [newline] := by
      refine eq_dropLast_concat ?_
      rw [ht] at hlast
      simpa [List.getLast?_append, hne] using hlast
    rw [ht]
    nth_rewrite 1 [hnl]
    simp [fieldText]

/-- **What a trailer looks like:** a `#` in front and no other, a newline at the end and
no other, and room to spare in the window a reader keeps. -/
theorem parseTrailer_some {t : Bytes} {tr : Trailer} (h : parseTrailer t = some tr) :
    ∃ w, t = 35 :: (w ++ [newline]) ∧ (∀ c ∈ w, Inside c) ∧ t.length < trailerMax := by
  unfold parseTrailer at h
  obtain ⟨hends, h⟩ := past_check h nofun
  have hlast : t.getLast? = some newline := by
    by_contra hne
    exact hends (Or.inr (Or.inr hne))
  split at h
  next =>
    obtain ⟨digits, hdigits, hlen, ht⟩ := parseBase_some h
    obtain ⟨w, hw, hin, hwlen⟩ := fieldText_inside _ _ _ hdigits hlen
    rw [hw] at ht
    refine ⟨w, ht, hin, ?_⟩
    rw [ht]
    simp [trailerMax]
    omega
  next k hk =>
    obtain ⟨hat, h⟩ := past_check h nofun
    simp only [Option.bind_eq_bind, Option.bind_eq_some_iff] at h
    obtain ⟨key, hkey, rest, hrest, sig, hsig, hbase⟩ := h
    have hat' : k + 202 = t.length - 1 := not_not.1 hat
    obtain ⟨digits, hdigits, hlen, ht⟩ := parseBase_some hbase
    obtain ⟨w, hw, hin, hwlen⟩ := fieldText_inside _ _ _ hdigits hlen
    have htake : t.take k = 35 :: w := by
      rw [← hw]
      exact List.append_cancel_right ht
    have hend : t.drop (k + 202) = [newline] := by
      rw [hat']
      nth_rewrite 2 [eq_dropLast_concat hlast]
      rw [← List.length_dropLast, List.drop_left]
    have e₁ : t.drop k = keyWord ++ t.drop (k + 5) := by
      rw [← List.drop_drop]
      exact (List.prefix_iff_eq_append.1 (findSub_some hk).2).symm
    have e₂ : t.drop (k + 5) = hexOf 32 key ++ t.drop (k + 69) := by
      have h := eq_hexOf_of_readHex hkey
      rwa [List.drop_drop, Nat.add_assoc] at h
    have e₃ : t.drop (k + 69) = sigWord ++ t.drop (k + 74) := by
      have h := eq_of_expect hrest
      have hrest' : rest = t.drop (k + 74) := by
        rw [show k + 74 = k + 69 + 5 from rfl, ← List.drop_drop, h]
        rfl
      rwa [hrest'] at h
    have e₄ : t.drop (k + 74) = hexOf 64 sig ++ [newline] := by
      have h := eq_hexOf_of_readHex hsig
      rwa [List.drop_drop, Nat.add_assoc, hend] at h
    have htext : t = 35 :: (w ++ (keyWord ++ (hexOf 32 key ++ (sigWord ++ hexOf 64 sig)))
        ++ [newline]) := by
      rw [← List.take_append_drop k t, htake, e₁, e₂, e₃, e₄]
      simp
    have hkeyWord := inside_word (w := keyWord) (by decide)
    have hsigWord := inside_word (w := sigWord) (by decide)
    refine ⟨_, htext, fun c hc => ?_, ?_⟩
    · simp only [List.mem_append] at hc
      obtain hc | hc | hc | hc | hc := hc
      exacts [hin c hc, hkeyWord c hc, inside_hexOf hc, hsigWord c hc, inside_hexOf hc]
    · have hk' : k = w.length + 1 := by
        have h := congrArg List.length htake
        rw [List.length_take, List.length_cons] at h
        omega
      rw [trailerMax]
      omega

end Log
end Fuzznet
