/-
# Bytes as text

What a line of text is written with and read by: the bytes of an ASCII word, bytes as
pairs of lower-case hex digits, a number in decimal digits, and the first place a pattern
stands at.  A reader takes digits from the front of what it is given, so the laws are about
a text followed by any other (`fromHex_toHex`, `findSub_append`).
-/

import Mathlib.Data.List.Induction
import Mathlib.Data.Nat.Digits.Defs

namespace Fuzznet
namespace Lib

/-- The bytes of a text. -/
def ascii (s : String) : List UInt8 := s.toList.map fun c => UInt8.ofNat c.toNat

/-! ## Hex digits -/

/-- The lower-case hex digit of a number below 16. -/
def hexDigit (n : ℕ) : UInt8 := if n < 10 then UInt8.ofNat (48 + n) else UInt8.ofNat (87 + n)

/-- The number a lower-case hex digit stands for. -/
def hexValue (c : UInt8) : Option ℕ :=
  if 48 ≤ c ∧ c ≤ 57 then some (c.toNat - 48)
  else if 97 ≤ c ∧ c ≤ 102 then some (c.toNat - 87)
  else none

variable {n : ℕ} {c : UInt8}

theorem hexValue_hexDigit (h : n < 16) : hexValue (hexDigit n) = some n := by
  have hall : ∀ m : Fin 16, hexValue (hexDigit m) = some m.val := by decide
  exact hall ⟨n, h⟩

theorem hexDigit_of_hexValue {v : ℕ} (h : hexValue c = some v) : v < 16 ∧ hexDigit v = c := by
  have hall : ∀ m : Fin 256, ∀ v ∈ hexValue (UInt8.ofNat m), v < 16 ∧ hexDigit v = UInt8.ofNat m := by
    decide +kernel
  have hc := hall ⟨c.toNat, c.toNat_lt⟩ v
  rw [UInt8.ofNat_toNat] at hc
  exact hc h

/-- A byte a hex text may hold. -/
def IsHex (c : UInt8) : Prop := (hexValue c).isSome

theorem IsHex.ne {c d : UInt8} (h : IsHex c) (hd : hexValue d = none) : c ≠ d := by
  rintro rfl
  rw [IsHex, hd] at h
  cases h

/-- Two hex digits for each byte, the high half first. -/
def toHex (bs : List UInt8) : List UInt8 :=
  bs.flatMap fun b => [hexDigit (b.toNat / 16), hexDigit (b.toNat % 16)]

/-- `n` bytes from the `2 * n` hex digits a text begins with. -/
def fromHex : ℕ → List UInt8 → Option (List UInt8)
  | 0, _ => some []
  | n + 1, hi :: lo :: t => do
    let h ← hexValue hi
    let l ← hexValue lo
    let bs ← fromHex n t
    some (UInt8.ofNat (16 * h + l) :: bs)
  | _ + 1, _ => none

@[simp] theorem toHex_cons (b : UInt8) (bs : List UInt8) :
    toHex (b :: bs) = hexDigit (b.toNat / 16) :: hexDigit (b.toNat % 16) :: toHex bs := rfl

@[simp] theorem length_toHex (bs : List UInt8) : (toHex bs).length = 2 * bs.length := by
  induction bs with
  | nil => rfl
  | cons b bs ih =>
    rw [toHex_cons, List.length_cons, List.length_cons, List.length_cons, ih]
    omega

theorem isHex_of_mem_toHex {bs : List UInt8} (h : c ∈ toHex bs) : IsHex c := by
  induction bs with
  | nil => cases h
  | cons b bs ih =>
    have hb := b.toNat_lt
    rw [toHex_cons, List.mem_cons, List.mem_cons] at h
    rcases h with rfl | rfl | h
    · rw [IsHex, hexValue_hexDigit (by omega)]
      rfl
    · rw [IsHex, hexValue_hexDigit (by omega)]
      rfl
    · exact ih h

/-- **Bytes written in hex are read back**, whatever stands behind. -/
theorem fromHex_toHex (bs rest : List UInt8) : fromHex bs.length (toHex bs ++ rest) = some bs := by
  induction bs with
  | nil => rfl
  | cons b bs ih =>
    have hb := b.toNat_lt
    have hbyte : UInt8.ofNat (16 * (b.toNat / 16) + b.toNat % 16) = b := by
      rw [Nat.div_add_mod, UInt8.ofNat_toNat]
    simp only [List.length_cons, toHex_cons, List.cons_append, fromHex, Option.bind_eq_bind,
      hexValue_hexDigit (show b.toNat / 16 < 16 by omega),
      hexValue_hexDigit (show b.toNat % 16 < 16 by omega), ih, Option.bind_some, hbyte]

/-- What is read from hex digits is spelled by them. -/
theorem eq_toHex_of_fromHex {t bs : List UInt8} (h : fromHex n t = some bs) :
    bs.length = n ∧ t = toHex bs ++ t.drop (2 * n) := by
  induction n generalizing t bs with
  | zero =>
    obtain rfl := Option.some.inj h
    exact ⟨rfl, rfl⟩
  | succ n ih =>
    match t, h with
    | [], h => cases h
    | [_], h => cases h
    | hi :: lo :: t, h =>
      simp only [fromHex, Option.bind_eq_bind, Option.bind_eq_some_iff] at h
      obtain ⟨x, hx, y, hy, bs', hbs, heq⟩ := h
      obtain rfl := Option.some.inj heq
      obtain ⟨hx16, rfl⟩ := hexDigit_of_hexValue hx
      obtain ⟨hy16, rfl⟩ := hexDigit_of_hexValue hy
      obtain ⟨hlen, ht⟩ := ih hbs
      have hnat : (UInt8.ofNat (16 * x + y)).toNat = 16 * x + y := by
        rw [UInt8.toNat_ofNat']
        omega
      refine ⟨by simp [hlen], ?_⟩
      rw [toHex_cons, hnat, show (16 * x + y) / 16 = x by omega,
        show (16 * x + y) % 16 = y by omega, show 2 * (n + 1) = 2 * n + 1 + 1 by omega,
        List.drop_succ_cons, List.drop_succ_cons, List.cons_append, List.cons_append, ← ht]

/-! ## Decimal digits -/

/-- The decimal digit of a number below 10. -/
def decimalDigit (n : ℕ) : UInt8 := UInt8.ofNat (48 + n)

/-- `%llu`: a number in decimal digits. -/
def decimal (n : ℕ) : List UInt8 :=
  if n = 0 then [decimalDigit 0] else (Nat.digits 10 n).reverse.map decimalDigit

/-- One more digit of a number that may not pass `max`. -/
def decimalStep (max v : ℕ) (c : UInt8) : Option ℕ :=
  if c < 48 ∨ 57 < c then none
  else if (max - (c.toNat - 48)) / 10 < v then none
  else some (v * 10 + (c.toNat - 48))

/-- The number decimal digits stand for, unless one of the bytes is no digit or it passes
`max`. -/
def fromDecimal (max : ℕ) (t : List UInt8) : Option ℕ := t.foldlM (decimalStep max) 0

theorem decimal_of_lt (h : n < 10) : decimal n = [decimalDigit n] := by
  unfold decimal
  split
  next h0 => rw [h0]
  next h0 => rw [Nat.digits_of_lt 10 n h0 h, List.reverse_singleton, List.map_singleton]

theorem decimal_of_ge (h : 10 ≤ n) : decimal n = decimal (n / 10) ++ [decimalDigit (n % 10)] := by
  have hpos : n / 10 ≠ 0 := by omega
  rw [decimal, if_neg (by omega), decimal, if_neg hpos, Nat.digits_def' (by omega) (by omega),
    List.reverse_cons, List.map_append, List.map_singleton]

theorem decimal_ne_nil (n : ℕ) : decimal n ≠ [] := by
  rcases Nat.lt_or_ge n 10 with h | h
  · rw [decimal_of_lt h]
    exact List.cons_ne_nil _ _
  · rw [decimal_of_ge h]
    exact List.append_ne_nil_of_right_ne_nil _ (List.cons_ne_nil _ _)

theorem toNat_decimalDigit (h : n < 10) : (decimalDigit n).toNat = 48 + n := by
  rw [decimalDigit, UInt8.toNat_ofNat']
  omega

/-- The bytes of a number's digits. -/
def IsDigit (c : UInt8) : Prop := 48 ≤ c.toNat ∧ c.toNat ≤ 57

theorem isDigit_iff : IsDigit c ↔ ¬ (c < 48 ∨ 57 < c) := by
  rw [UInt8.lt_iff_toNat_lt, UInt8.lt_iff_toNat_lt, not_or, not_lt, not_lt]
  exact Iff.rfl

theorem isDigit_decimalDigit (h : n < 10) : IsDigit (decimalDigit n) := by
  rw [IsDigit, toNat_decimalDigit h]
  omega

theorem isDigit_of_mem_decimal (h : c ∈ decimal n) : IsDigit c := by
  induction n using Nat.strong_induction_on with
  | _ n ih =>
    rcases Nat.lt_or_ge n 10 with hn | hn
    · rw [decimal_of_lt hn, List.mem_singleton] at h
      rw [h]
      exact isDigit_decimalDigit hn
    · rw [decimal_of_ge hn, List.mem_append, List.mem_singleton] at h
      rcases h with h | rfl
      · exact ih (n / 10) (by omega) h
      · exact isDigit_decimalDigit (by omega)

theorem length_decimal_le {n k : ℕ} (h : n < 10 ^ (k + 1)) : (decimal n).length ≤ k + 1 := by
  induction k generalizing n with
  | zero =>
    rw [decimal_of_lt (by omega)]
    exact le_rfl
  | succ k ih =>
    rcases Nat.lt_or_ge n 10 with hn | hn
    · rw [decimal_of_lt hn]
      simp
    · have hdiv : n / 10 < 10 ^ (k + 1) := by
        rw [Nat.div_lt_iff_lt_mul (by omega)]
        rwa [Nat.pow_succ] at h
      rw [decimal_of_ge hn, List.length_append, List.length_singleton]
      have := ih hdiv
      omega

theorem decimalStep_digit {max v d : ℕ} (hd : d < 10) (h : v * 10 + d ≤ max) :
    decimalStep max v (decimalDigit d) = some (v * 10 + d) := by
  unfold decimalStep
  rw [if_neg (isDigit_iff.1 (isDigit_decimalDigit hd)), toNat_decimalDigit hd,
    Nat.add_sub_cancel_left, if_neg (by omega)]

/-- **A number written in decimal is read back.** -/
theorem fromDecimal_decimal {max n : ℕ} (h : n ≤ max) : fromDecimal max (decimal n) = some n := by
  induction n using Nat.strong_induction_on with
  | _ n ih =>
    rcases Nat.lt_or_ge n 10 with hn | hn
    · rw [decimal_of_lt hn, fromDecimal]
      simpa using decimalStep_digit (v := 0) hn (by omega)
    · have hlast : n / 10 * 10 + n % 10 = n := Nat.div_add_mod' n 10
      rw [decimal_of_ge hn, fromDecimal, List.foldlM_append]
      have hfront : (decimal (n / 10)).foldlM (decimalStep max) 0 = some (n / 10) :=
        ih (n / 10) (by omega) (by omega)
      rw [hfront]
      simpa [hlast] using decimalStep_digit (v := n / 10) (d := n % 10) (by omega) (by omega)

theorem decimalStep_some {max v w : ℕ} (hmax : 9 ≤ max) (h : decimalStep max v c = some w) :
    IsDigit c ∧ w ≤ max := by
  unfold decimalStep at h
  split at h
  next => cases h
  next hd =>
    have hdigit := isDigit_iff.2 hd
    refine ⟨hdigit, ?_⟩
    split at h
    next => cases h
    next hv =>
      obtain rfl := Option.some.inj h
      rw [IsDigit] at hdigit
      omega

theorem fromDecimal_some {max n : ℕ} {t : List UInt8} (hmax : 9 ≤ max)
    (h : fromDecimal max t = some n) : (∀ c ∈ t, IsDigit c) ∧ n ≤ max := by
  induction t using List.reverseRecOn generalizing n with
  | nil =>
    obtain rfl := Option.some.inj h
    exact ⟨by simp, Nat.zero_le max⟩
  | append_singleton t c ih =>
    rw [fromDecimal, List.foldlM_append, Option.bind_eq_bind, Option.bind_eq_some_iff] at h
    obtain ⟨v, hv, hstep⟩ := h
    have hlast : decimalStep max v c = some n := by simpa using hstep
    obtain ⟨hdigit, hle⟩ := decimalStep_some hmax hlast
    refine ⟨fun d hd => ?_, hle⟩
    rcases List.mem_append.1 hd with hd | hd
    · exact (ih hv).1 d hd
    · rwa [List.mem_singleton.1 hd]

/-! ## The first place of a pattern -/

/-- `strstr` over a bounded text: the first place `pat` stands at. -/
def findSub (pat : List UInt8) : List UInt8 → Option ℕ
  | [] => if pat = [] then some 0 else none
  | c :: t => if pat.isPrefixOf (c :: t) then some 0 else (findSub pat t).map (· + 1)

theorem findSub_append {pat a b : List UInt8} (h : c ∉ a) :
    findSub (c :: pat) (a ++ b) = (findSub (c :: pat) b).map (· + a.length) := by
  induction a with
  | nil => simp
  | cons d a ih =>
    rw [List.mem_cons, not_or] at h
    obtain ⟨hd, ha⟩ := h
    have hne : (c == d) = false := by simpa using hd
    rw [List.cons_append, findSub, List.isPrefixOf_cons_cons, hne, Bool.false_and,
      if_neg (by simp), ih ha, Option.map_map, List.length_cons]
    rfl

/-- A pattern stands where it is found. -/
theorem findSub_some {pat t : List UInt8} {k : ℕ} (h : findSub pat t = some k) :
    k ≤ t.length ∧ pat <+: t.drop k := by
  induction t generalizing k with
  | nil =>
    unfold findSub at h
    split at h
    next hpat =>
      obtain rfl := Option.some.inj h
      exact ⟨le_rfl, by simp [hpat]⟩
    next => cases h
  | cons c t ih =>
    unfold findSub at h
    split at h
    next hpre =>
      obtain rfl := Option.some.inj h
      exact ⟨Nat.zero_le _, List.isPrefixOf_iff_prefix.1 hpre⟩
    next =>
      obtain ⟨j, hj, rfl⟩ := Option.map_eq_some_iff.1 h
      obtain ⟨hle, hpre⟩ := ih hj
      exact ⟨by simpa using hle, by simpa using hpre⟩

end Lib
end Fuzznet
