/-
# A setting signed

`issue` and `fzn_setting_open` of `state/setting.c`, which lay a setting out and read it back.
What a setter signs of a setting is its `signedPart`, every field of it, the rank it states
behind the value where it states one; what opens is a signed part and a signature of it, and
nothing else does (`settingOpen_iff`).
-/

import Fuzznet.State.Setting
import Fuzznet.Wire.Codec

namespace Fuzznet
namespace State

open Wire
open Session (bytes32 length_bytes32)

/-- What a setter signs of a setting. -/
def Setting.signedPart (s : Setting) : Bytes :=
  signedVersion :: settingTag :: (bytes32 s.setter ++ s.scope.byte :: (bytes32 s.about ++
    (putBe 8 s.version.toNat ++ UInt8.ofNat s.key.length :: (s.key ++
      (if s.set then 1 else 0) :: (putBe 2 s.value.length ++ (s.value ++
        (s.rank.map SettingRank.byte).toList))))))

/-- What is signed of the bytes of a setting. -/
def settingSigned (b : Bytes) : Bytes := b.take (b.length - 64)

/-- `issue`: `s` signed, of the rank it states. -/
def settingIssue (ops : SignOps) (s : Setting) : Except SettingErr Bytes :=
  if settingKeyOk s.key = false ∨ (s.set = false ∧ s.value ≠ []) ∨ valueOk s.value = false then
    .error .malformed
  else if s.scope = .hostPrivate then .error .scope
  else
    match ops.sign s.signedPart with
    | none => .error .signature
    | some sig => .ok (s.signedPart ++ putBe 64 sig.toNat)

/-- What a setting has to be, to be issued or opened. -/
structure Setting.Formed (s : Setting) : Prop where
  key : settingKeyOk s.key = true
  clear : s.set = false → s.value = []
  value : valueOk s.value = true
  scope : s.scope ≠ .hostPrivate

/-! ## Its lengths -/

variable {ops : SignOps} {s : Setting} {b : Bytes}

theorem Setting.Formed.length_key (h : s.Formed) : 0 < s.key.length ∧ s.key.length ≤ keyMax := by
  have hkey := h.key
  rw [settingKeyOk, Bool.and_eq_true, Bool.and_eq_true, bne_iff_ne, decide_eq_true_eq] at hkey
  exact ⟨List.length_pos_of_ne_nil hkey.1.1, hkey.1.2⟩

theorem Setting.Formed.length_value (h : s.Formed) : s.value.length ≤ valueMax := by
  have hvalue := h.value
  rw [valueOk, Bool.and_eq_true, decide_eq_true_eq] at hvalue
  exact hvalue.1

theorem length_signedPart (s : Setting) : s.signedPart.length =
    79 + s.key.length + s.value.length + (s.rank.map SettingRank.byte).toList.length := by
  simp only [Setting.signedPart, List.length_cons, List.length_append, length_bytes32,
    length_putBe]
  omega

theorem length_rank_le (r : Option SettingRank) :
    (r.map SettingRank.byte).toList.length ≤ 1 := by
  cases r with
  | none => exact Nat.zero_le 1
  | some r => exact le_rfl

theorem settingSigned_append (s : Setting) (sig : Sig) :
    settingSigned (s.signedPart ++ putBe 64 sig.toNat) = s.signedPart := by
  rw [settingSigned, List.length_append, length_putBe, Nat.add_sub_cancel]
  exact List.take_left

/-! ## What opens -/

theorem scopeServed_byte {sc : Scope} (h : sc ≠ .hostPrivate) : scopeServed sc.byte = some sc := by
  cases sc with
  | hostPrivate => exact absurd rfl h
  | host => rfl
  | group => rfl
  | estate => rfl

theorem byte_of_scopeServed {b : UInt8} {sc : Scope} (h : scopeServed b = some sc) :
    sc.byte = b := by
  unfold scopeServed at h
  split_ifs at h <;> (obtain rfl := Option.some.inj h; subst_vars; rfl)

theorem byte_of_rankOfByte {b : UInt8} {r : SettingRank} (h : rankOfByte b = some r) :
    r.byte = b := by
  unfold rankOfByte at h
  split_ifs at h <;> (obtain rfl := Option.some.inj h; subst_vars; rfl)

/-- A key or a signature read in place is written back as it stands. -/
theorem bytes32_getBe {off : ℕ} (h : off + 32 ≤ b.length) :
    bytes32 (BitVec.ofNat 256 (getBe b off 32)) ++ b.drop (off + 32) = b.drop off := by
  rw [bytes32, toNat_getBe b off 32]
  exact putBe_getBe_append b off 32 h

/-- How bytes that open are laid out, for a key of `k` bytes and a value of `v`. -/
structure Laid (b : Bytes) (k v : ℕ) (r : Option SettingRank) : Prop where
  version : b.getD 0 0 = signedVersion
  tag : b.getD 1 0 = settingTag
  keyLen : (b.getD 75 0).toNat = k
  op : b.getD (76 + k) 0 ≤ 1
  valueLen : getBe b (77 + k) 2 = v
  length : b.length = 79 + k + v + (r.map SettingRank.byte).toList.length + 64
  rank : (r.map SettingRank.byte).toList ++ b.drop (b.length - 64) = b.drop (79 + k + v)

/-- What is read of bytes laid out. -/
def readSetting (b : Bytes) (k v : ℕ) (scope : Scope) (r : Option SettingRank) : Setting where
  setter := BitVec.ofNat 256 (getBe b 2 32)
  scope := scope
  about := BitVec.ofNat 256 (getBe b 35 32)
  version := UInt64.ofNat (getBe b 67 8)
  key := (b.drop 76).take k
  set := b.getD (76 + k) 0 == 1
  value := (b.drop (79 + k)).take v
  rank := r

theorem settingOpen_laid (h : settingOpen ops b = .ok s) : ∃ k v scope r, Laid b k v r ∧
      s = readSetting b k v scope r ∧ s.Formed ∧ scope.byte = b.getD 34 0 ∧
        ops.verify s.setter (settingSigned b)
          (BitVec.ofNat 512 (getBe b (b.length - 64) 64)) = true := by
  have hnamed := settingOpen_named h
  obtain ⟨k, hk⟩ : ∃ k, (b.getD 75 0).toNat = k := ⟨_, rfl⟩
  obtain ⟨v, hv⟩ : ∃ v, getBe b (77 + k) 2 = v := ⟨_, rfl⟩
  have hat : 76 + k + 1 = 77 + k := by omega
  have hat' : 76 + k + 3 = 79 + k := by omega
  unfold settingOpen at h
  dsimp only at h
  rw [hk, hat, hat', hv] at h
  split at h
  next => cases h
  next hbounds =>
    split at h
    next => cases h
    next hkey =>
      split at h
      next => cases h
      next hshape =>
        cases hscope : scopeServed (b.getD 34 0) with
        | none => rw [hscope] at h; cases h
        | some scope =>
          rw [hscope] at h
          dsimp only at h
          split at h
          next => cases h
          next hverify =>
            obtain rfl := Except.ok.inj h
            simp only [not_or, not_not, not_and, not_lt, Bool.not_eq_false, beq_iff_eq,
              beq_eq_false_iff_ne] at hbounds hkey hshape
            obtain ⟨hmin, -, hversion, htag⟩ := hbounds
            obtain ⟨-, hlong, hop⟩ := hkey
            obtain ⟨hlength, hclear, hvalue, hrank⟩ := hshape
            have hstated : ∃ r, (if b.length == 79 + k + v + 1 + 64 then
                rankOfByte (b.getD (79 + k + v) 0) else none) = r ∧
                b.length = 79 + k + v + (r.map SettingRank.byte).toList.length + 64 ∧
                (r.map SettingRank.byte).toList ++ b.drop (b.length - 64) =
                  b.drop (79 + k + v) := by
              by_cases hranked : b.length = 79 + k + v + 1 + 64
              · obtain ⟨r, hr⟩ := Option.ne_none_iff_exists'.1 (hrank hranked)
                refine ⟨some r, by rw [if_pos (beq_iff_eq.2 hranked), hr], hranked, ?_⟩
                rw [Option.map_some, byte_of_rankOfByte hr, hranked]
                exact getD_cons_drop (by omega) (by omega)
              · refine ⟨none, if_neg fun h => hranked (beq_iff_eq.1 h), hlength hranked, ?_⟩
                rw [hlength hranked]
                rfl
            obtain ⟨r, hr, hlen, hbehind⟩ := hstated
            refine ⟨k, v, scope, r,
              ⟨hversion, htag, hk, UInt8.not_lt.1 hop, hv, hlen, hbehind⟩, ?_,
              ⟨hnamed.1, ?_, hvalue, hnamed.2⟩, byte_of_scopeServed hscope,
              Bool.not_eq_false _ ▸ hverify⟩
            · rw [← hr]
              rfl
            · intro hset
              have hzero : b.getD (76 + k) 0 = 0 := by
                have hne : b.getD (76 + k) 0 ≠ 1 := fun h => by
                  rw [h] at hset
                  cases hset
                have hle := UInt8.not_lt.1 hop
                rw [UInt8.le_iff_toNat_le] at hle
                have hne' : (b.getD (76 + k) 0).toNat ≠ 1 := fun h => hne (UInt8.toNat.inj h)
                apply UInt8.toNat.inj
                rw [show (1 : UInt8).toNat = 1 from rfl] at hle
                rw [show (0 : UInt8).toNat = 0 from rfl]
                omega
              rw [hclear hzero]
              rfl

/-- **Bytes laid out are the signed part of what is read, and a signature.** -/
theorem Laid.signed {k v : ℕ} {r : Option SettingRank} (h : Laid b k v r) {scope : Scope}
    (hscope : scope.byte = b.getD 34 0) :
    b = (readSetting b k v scope r).signedPart ++
      putBe 64 (BitVec.ofNat 512 (getBe b (b.length - 64) 64)).toNat := by
  have hlen := h.length
  have hsig : putBe 64 (BitVec.ofNat 512 (getBe b (b.length - 64) 64)).toNat =
      b.drop (b.length - 64) := by
    have hall := putBe_getBe_append b (b.length - 64) 64 (by omega)
    rw [List.drop_of_length_le (show b.length ≤ b.length - 64 + 64 by omega),
      List.append_nil] at hall
    rw [toNat_getBe b _ 64, hall]
  have hversion : putBe 8 (UInt64.ofNat (getBe b 67 8)).toNat = putBe 8 (getBe b 67 8) := by
    have hlt : getBe b 67 8 < 2 ^ 64 := getBe_lt b 67 8
    rw [UInt64.toNat_ofNat', Nat.mod_eq_of_lt hlt]
  have hkey : ((b.drop 76).take k).length = k := by
    rw [List.length_take, List.length_drop]
    omega
  have hvalue : ((b.drop (79 + k)).take v).length = v := by
    rw [List.length_take, List.length_drop]
    omega
  have hop : (if b.getD (76 + k) 0 == 1 then 1 else 0) = b.getD (76 + k) 0 := by
    have hle := h.op
    rw [UInt8.le_iff_toNat_le, show (1 : UInt8).toNat = 1 from rfl] at hle
    rcases Nat.le_one_iff_eq_zero_or_eq_one.1 hle with hzero | hone
    · rw [show b.getD (76 + k) 0 = 0 from UInt8.toNat.inj hzero]
      rfl
    · rw [show b.getD (76 + k) 0 = 1 from UInt8.toNat.inj hone]
      rfl
  have hkeyLen : UInt8.ofNat k = b.getD 75 0 := by
    rw [← h.keyLen, UInt8.ofNat_toNat]
  have hvalueLen : putBe 2 v = putBe 2 (getBe b (77 + k) 2) := by
    rw [h.valueLen]
  have hfield : ∀ off n, (b.drop off).take n ++ b.drop (off + n) = b.drop off := by
    intro off n
    rw [← List.drop_drop, List.take_append_drop]
  unfold Setting.signedPart readSetting
  dsimp only
  rw [hkey, hvalue, hop, hversion, hscope, hkeyLen, hvalueLen, ← h.version, ← h.tag, hsig]
  simp only [List.cons_append, List.append_assoc]
  -- from the signature to the front, each field read in place before what is behind it
  rw [h.rank, hfield (79 + k) v, show 79 + k = 77 + k + 2 by omega,
    putBe_getBe_append b _ 2 (by omega), getD_cons_drop (by omega) (by omega), hfield 76 k,
    getD_cons_drop (by omega) rfl, putBe_getBe_append b 67 8 (by omega),
    bytes32_getBe (by omega), getD_cons_drop (by omega) rfl, bytes32_getBe (by omega),
    getD_cons_drop (by omega) rfl, getD_cons_drop (by omega) rfl, List.drop_zero]

/-- **What opens is a signed part and a signature of it.** -/
theorem settingOpen_signed (h : settingOpen ops b = .ok s) :
    s.Formed ∧ settingSigned b = s.signedPart ∧
      ∃ sig : Sig, b = s.signedPart ++ putBe 64 sig.toNat ∧
        ops.verify s.setter s.signedPart sig = true := by
  obtain ⟨k, v, scope, r, hlaid, hs, hformed, hscope, hverify⟩ := settingOpen_laid h
  have hb := hlaid.signed hscope
  rw [← hs] at hb
  have hsigned : settingSigned b = s.signedPart := by
    rw [hb]
    exact settingSigned_append s _
  exact ⟨hformed, hsigned, _, hb, hsigned ▸ hverify⟩

/-- **A signed part and a signature of it open** to what was signed. -/
theorem settingOpen_append {sig : Sig} (h : s.Formed)
    (hverify : ops.verify s.setter s.signedPart sig = true) :
    settingOpen ops (s.signedPart ++ putBe 64 sig.toNat) = .ok s := by
  obtain ⟨b, hb⟩ : ∃ b, b = s.signedPart ++ putBe 64 sig.toNat := ⟨_, rfl⟩
  obtain ⟨hkeyPos, hkeyLe⟩ := h.length_key
  have hvalueLe := h.length_value
  have hrankLe := length_rank_le s.rank
  rw [keyMax] at hkeyLe
  rw [valueMax] at hvalueLe
  have hlen : b.length = 79 + s.key.length + s.value.length +
      (s.rank.map SettingRank.byte).toList.length + 64 := by
    rw [hb, List.length_append, length_signedPart, length_putBe]
  have h₀ : b.drop 0 = signedVersion :: settingTag :: (bytes32 s.setter ++ s.scope.byte ::
      (bytes32 s.about ++ (putBe 8 s.version.toNat ++ UInt8.ofNat s.key.length :: (s.key ++
        (if s.set then 1 else 0) :: (putBe 2 s.value.length ++ (s.value ++
          ((s.rank.map SettingRank.byte).toList ++ putBe 64 sig.toNat))))))) := by
    rw [List.drop_zero, hb, Setting.signedPart]
    simp only [List.cons_append, List.append_assoc]
  have h₁ := drop_next_cons h₀ rfl
  have h₂ := drop_next_cons h₁ rfl
  have h₃₄ := drop_next h₂ (m := 34) (by rw [length_bytes32])
  have h₃₅ := drop_next_cons h₃₄ rfl
  have h₆₇ := drop_next h₃₅ (m := 67) (by rw [length_bytes32])
  have h₇₅ := drop_next h₆₇ (m := 75) (by rw [length_putBe])
  have h₇₆ := drop_next_cons h₇₅ rfl
  have hop := drop_next h₇₆ (m := 76 + s.key.length) rfl
  have hlength := drop_next_cons hop (m := 77 + s.key.length) (by omega)
  have hvalue := drop_next hlength (m := 79 + s.key.length) (by rw [length_putBe]; omega)
  have hrank := drop_next hvalue (m := 79 + s.key.length + s.value.length) rfl
  have hsig := drop_next hrank (m := b.length - 64) (by omega)
  have hkeyLen : (b.getD 75 0).toNat = s.key.length := by
    rw [getD_of_drop h₇₅, UInt8.toNat_ofNat', Nat.mod_eq_of_lt (by omega)]
  have hvalueLen : getBe b (77 + s.key.length) 2 = s.value.length :=
    getBe_of_drop hlength (by omega)
  have hkey : (b.drop 76).take s.key.length = s.key := by
    rw [h₇₆, List.take_left]
  have hval : (b.drop (79 + s.key.length)).take s.value.length = s.value := by
    rw [hvalue, List.take_left]
  have hsetter : BitVec.ofNat 256 (getBe b 2 32) = s.setter := by
    rw [getBe_of_drop h₂ (toNat_lt_bytes _), BitVec.ofNat_toNat, BitVec.setWidth_eq]
  have habout : BitVec.ofNat 256 (getBe b 35 32) = s.about := by
    rw [getBe_of_drop h₃₅ (toNat_lt_bytes _), BitVec.ofNat_toNat, BitVec.setWidth_eq]
  have hversion : UInt64.ofNat (getBe b 67 8) = s.version := by
    rw [getBe_of_drop h₆₇ (toNat_lt_be64 _), UInt64.ofNat_toNat]
  have hsigned : b.take (b.length - 64) = s.signedPart := by
    rw [hb]
    exact settingSigned_append s sig
  have hsigBack : BitVec.ofNat 512 (getBe b (b.length - 64) 64) = sig := by
    have hend : b.drop (b.length - 64) = putBe 64 sig.toNat ++ [] :=
      hsig.trans (List.append_nil _).symm
    rw [getBe_of_drop hend (toNat_lt_sig sig), BitVec.ofNat_toNat, BitVec.setWidth_eq]
  have hset : (b.getD (76 + s.key.length) 0 == 1) = s.set := by
    rw [getD_of_drop hop]
    cases s.set <;> rfl
  have hranked : (b.length == 79 + s.key.length + s.value.length + 1 + 64) = s.rank.isSome := by
    rw [hlen]
    cases s.rank with
    | none => exact beq_eq_false_iff_ne.2 fun h => by simp at h
    | some r => exact beq_self_eq_true _
  rw [← hb]
  unfold settingOpen
  dsimp only
  rw [hkeyLen, show 76 + s.key.length + 1 = 77 + s.key.length by omega,
    show 76 + s.key.length + 3 = 79 + s.key.length by omega, hvalueLen, hkey, hval, hsetter,
    habout, hversion, hsigned, hsigBack, hset, hranked, getD_of_drop h₃₄,
    scopeServed_byte h.scope]
  have hstated : (if s.rank.isSome then
      rankOfByte (b.getD (79 + s.key.length + s.value.length) 0) else none) = s.rank := by
    cases hr : s.rank with
    | none => rfl
    | some r =>
      rw [hr] at hrank
      rw [getD_of_drop hrank, rankOfByte_byte]
      rfl
  have hbyte : ¬1 < b.getD (76 + s.key.length) 0 := by
    rw [getD_of_drop hop]
    cases s.set <;> decide
  rw [if_neg ?bounds, if_neg ?key, if_neg ?shape]
  case bounds =>
    rw [settingMin, settingMax, keyMax, valueMax, getD_of_drop h₀, getD_of_drop h₁]
    rintro (hlt | hlt | hne | hne)
    · omega
    · omega
    · exact hne rfl
    · exact hne rfl
  case key =>
    rintro (hbad | hlt | hlt)
    · exact Bool.noConfusion (hbad.symm.trans h.key)
    · omega
    · exact hbyte hlt
  case shape =>
    rintro (⟨hnone, hne⟩ | ⟨hclear, hne⟩ | hbad | ⟨hsome, hnone⟩)
    · rw [Option.isSome_eq_false_iff, Option.isNone_iff_eq_none] at hnone
      rw [hnone] at hlen
      exact hne hlen
    · have hfalse : s.set = false := by
        rw [← hset, hclear]
        rfl
      rw [h.clear hfalse] at hne
      exact hne rfl
    · exact Bool.noConfusion (hbad.symm.trans h.value)
    · rw [if_pos hsome, hnone] at hstated
      rw [← hstated] at hsome
      cases hsome
  dsimp only
  rw [hverify, hstated]
  exact if_neg Bool.noConfusion

/-- **A setting opens where its setter signed it**, and it is formed. -/
theorem settingOpen_iff {ops : SignOps} {b : Bytes} {s : Setting} :
    settingOpen ops b = .ok s ↔ s.Formed ∧ ∃ sig : Sig, b = s.signedPart ++ putBe 64 sig.toNat ∧
      ops.verify s.setter s.signedPart sig = true := by
  constructor
  · intro h
    obtain ⟨hformed, -, hsig⟩ := settingOpen_signed h
    exact ⟨hformed, hsig⟩
  · rintro ⟨hformed, sig, rfl, hverify⟩
    exact settingOpen_append hformed hverify

/-- Settings of one signed part are one. -/
theorem signedPart_inj {s s' : Setting} (h : s.Formed) (h' : s'.Formed)
    (heq : s.signedPart = s'.signedPart) : s = s' := by
  have hopen : settingOpen acceptingSign (s.signedPart ++ putBe 64 (0 : Sig).toNat) = .ok s :=
    settingOpen_append h rfl
  have hopen' : settingOpen acceptingSign (s'.signedPart ++ putBe 64 (0 : Sig).toNat) = .ok s' :=
    settingOpen_append h' rfl
  rw [heq] at hopen
  exact Except.ok.inj (hopen.symm.trans hopen')

/-- What is formed is issued, where it is signed. -/
theorem settingIssue_formed {sig : Sig} (h : s.Formed) (hsign : ops.sign s.signedPart = some sig) :
    settingIssue ops s = .ok (s.signedPart ++ putBe 64 sig.toNat) := by
  unfold settingIssue
  rw [if_neg, if_neg h.scope, hsign]
  rintro (hkey | ⟨hclear, hne⟩ | hvalue)
  · exact Bool.noConfusion (hkey.symm.trans h.key)
  · exact hne (h.clear hclear)
  · exact Bool.noConfusion (hvalue.symm.trans h.value)

/-- **A setting issued opens**, where its setter's signatures verify. -/
theorem settingOpen_issue {ops ops' : SignOps} (h : settingIssue ops s = .ok b)
    (hverify : ∀ sig, ops.sign s.signedPart = some sig →
      ops'.verify s.setter s.signedPart sig = true) : settingOpen ops' b = .ok s := by
  unfold settingIssue at h
  split at h
  next => cases h
  next hok =>
    split at h
    next => cases h
    next hscope =>
      split at h
      next => cases h
      next sig hsign =>
        obtain rfl := Except.ok.inj h
        simp only [not_or, not_and, not_not, Bool.not_eq_false] at hok
        exact settingOpen_append ⟨hok.1, hok.2.1, hok.2.2, hscope⟩ (hverify sig hsign)

end State
end Fuzznet
