/-
# Packing a closed segment, and checking one

`fzn_log_pack_segment` and `fzn_log_pack_verify` of `log/pack.c`.  The packer reads a segment
64 KiB at a time, folds each chunk into a hash chain that starts at the segment before, and
writes the trailer directly behind the last byte, all of it one zstd frame.

The checker does not know where the segment ends.  It holds back a window one chunk and one
trailer long: a full window has its first chunk folded, so the trailer is in what is left
when the frame ends.  The last line of that is parsed, and what stands before it is folded
in the chunks the packer folded.

`Sealed` says of a whole content what the checker found when it answers OK: a body that is
empty or ends a line, and a trailer of the chain over it.  `verifyFinish_iff` is the end of
the check in these terms; `Log/PackVerify.lean` runs the window over a frame.

`fzn_log_pack_verify_step` is the same check with a budget, and `verifyAtOnce` what the steps
are for: the content unpacked whole, its last line split off, the rest folded from `prev` and
the trailer checked.  `Log/PackSteps.lean` compares the two.
-/

import Fuzznet.Lib.Pieces
import Fuzznet.Log.Trailer
import Fuzznet.Log.Zstd

namespace Fuzznet
namespace Log

open Wire Lib

/-- `fzn_log_pack_err_t`, without OK. -/
inductive PackErr
  | malformed
  | file
  | zstd
  | chain
  | signature
  | tooLarge
  deriving DecidableEq, Repr

/-- `FZN_LOG_PACK_CHUNK`. -/
def chunkLen : ℕ := 65536

/-- `fold_chunk`: `state = H(state ‖ c)`. -/
def foldChunk (hash : HashOps) (state : Bytes32) (c : Bytes) : Option Bytes32 :=
  hash.hash (putBe 32 state.toNat ++ c)

/-- `chain_over`, and the packer's loop: the chain over some bytes, from `prev`. -/
@[grind =] def chainOver (hash : HashOps) (prev : Bytes32) (bs : Bytes) : Option Bytes32 :=
  (pieces chunkLen bs).foldlM (foldChunk hash) prev

/-- A trailer line as it is written. -/
def trailerLine (prev hash : Bytes32) (repacked : Option Repacked) (sig : Option (Key × Sig)) :
    Bytes :=
  trailerBase prev hash repacked ++ sigSuffix sig ++ [newline]

/-- `fzn_log_pack_segment`: the packed file and the segment's hash. -/
def packSegment (z : Zstd) (hash : HashOps) (signer : Option Signer) (prev : Bytes32)
    (segment : Bytes) : Except PackErr (Bytes × Bytes32) :=
  match chainOver hash prev segment with
  | none => .error .chain
  | some h =>
    match signLine signer (trailerBase prev h none) with
    | none => .error .signature
    | some sig =>
      match z.compress (pieces chunkLen segment ++ [trailerLine prev h none sig]) with
      | none => .error .zstd
      | some frame => .ok (frame, h)

/-! ## Checking one -/

/-- Where the last line begins: behind the newline before position `n`. -/
@[grind =] def lineStart (bs : Bytes) : ℕ → ℕ
  | 0 => 0
  | n + 1 => if bs[n]? = some newline then n + 1 else lineStart bs n

/-- The size of `inbuf`. -/
def inbufLen : ℕ := 65536

/-- The size of `pending`: a chunk and the longest trailer. -/
def windowLen : ℕ := chunkLen + trailerMax

/-- `fzn_log_pack_verifying_t`: `unread` is the file behind what was read of it, `input` what
was read and zstd has not taken, and `pending` the window. -/
structure Verifying (z : Zstd) where
  unread : Bytes
  input : Bytes
  stream : z.Stream
  pending : Bytes
  state : Bytes32
  unpacked : ℕ
  last : ℕ
  folded : Bool
  outFull : Bool

/-- `fzn_log_pack_verify_begin`. -/
def verifyBegin (z : Zstd) (prev : Bytes32) (file : Bytes) : Verifying z :=
  ⟨file, [], z.start, [], prev, 0, 1, false, false⟩

/-- What one turn of the loop came to: another turn, the file's end, or an error. -/
inductive Turn (z : Zstd)
  | more (v : Verifying z)
  | ended (v : Verifying z)
  | failed (err : PackErr)

/-- Whether a count passes a bound, none being `UINT64_MAX`, which no file passes. -/
def passes (unpackedMax : Option ℕ) (unpacked : ℕ) : Prop := ∃ m ∈ unpackedMax, m < unpacked

instance (unpackedMax : Option ℕ) (unpacked : ℕ) : Decidable (passes unpackedMax unpacked) :=
  match unpackedMax with
  | none => isFalse fun ⟨_, h, _⟩ => nomatch h
  | some m => decidable_of_iff (m < unpacked) ⟨fun h => ⟨m, rfl, h⟩, fun ⟨_, h, hlt⟩ => by
    obtain rfl := Option.some.inj h
    exact hlt⟩

/-- A part of the frame unpacked into the window, and a full window's first chunk folded. -/
def unpackStep (z : Zstd) (hash : HashOps) (unpackedMax : Option ℕ) (v : Verifying z) : Turn z :=
  let u := z.decompress v.stream v.input (windowLen - v.pending.length)
  match u.last with
  | none => .failed .zstd
  | some last =>
    let v' : Verifying z :=
      { v with
        input := v.input.drop u.taken
        stream := u.stream
        pending := v.pending ++ u.out
        unpacked := v.unpacked + u.out.length
        last := last
        outFull := decide (u.out.length = windowLen - v.pending.length) }
    if passes unpackedMax v'.unpacked then .failed .tooLarge
    else if v'.pending.length = windowLen then
      match foldChunk hash v.state (v'.pending.take chunkLen) with
      | none => .failed .chain
      | some state =>
        .more { v' with state := state, pending := v'.pending.drop chunkLen, folded := true }
    else .more v'

/-- A turn of `fzn_log_pack_verify_step`: more of the file is read only once zstd has given
out all it holds. -/
def verifyTurn (z : Zstd) (hash : HashOps) (unpackedMax : Option ℕ) (v : Verifying z) : Turn z :=
  if v.input = [] ∧ v.outFull = false then
    if v.unread = [] then .ended v
    else unpackStep z hash unpackedMax
      { v with input := v.unread.take inbufLen, unread := v.unread.drop inbufLen }
  else unpackStep z hash unpackedMax v

/-- `fzn_log_pack_verify_step` without a budget; none where `fuel` turns are not enough. -/
def verifyLoop (z : Zstd) (hash : HashOps) (unpackedMax : Option ℕ) :
    ℕ → Verifying z → Option (Except PackErr (Verifying z))
  | 0, _ => none
  | fuel + 1, v =>
    match verifyTurn z hash unpackedMax v with
    | .more v => verifyLoop z hash unpackedMax fuel v
    | .ended v => some (.ok v)
    | .failed err => some (.error err)

/-- What a check that answers OK gives: the hash the next segment names, and who signed. -/
structure Verified where
  hash : Bytes32
  signer : Option Key
  deriving DecidableEq

/-- `signature_holds`, where there is a signature and something to check it with. -/
def checkSignature (sign : Option SignOps) (tr : Trailer) : Except PackErr Verified :=
  match sign, tr.sig with
  | some ops, some (key, sig) =>
    if ops.verify key (signedText tr.base) sig then .ok ⟨carried tr, some key⟩
    else .error .signature
  | _, _ => .ok ⟨carried tr, none⟩

/-- What is before the last line of the window, folded in the packer's chunks. -/
def foldRest (hash : HashOps) (state : Bytes32) (pending : Bytes) (start : ℕ) : Option Bytes32 :=
  if chunkLen < start then do
    let state ← foldChunk hash state (pending.take chunkLen)
    foldChunk hash state ((pending.drop chunkLen).take (start - chunkLen))
  else if start ≠ 0 then foldChunk hash state (pending.take start)
  else some state

/-- `verify_finish`. -/
def verifyFinish {z : Zstd} (hash : HashOps) (sign : Option SignOps) (prev : Bytes32)
    (v : Verifying z) : Except PackErr Verified :=
  if v.last ≠ 0 then .error .zstd
  else if v.pending.length < 2 then .error .chain
  else
    let start := lineStart v.pending (v.pending.length - 1)
    if (start = 0 ∧ v.folded = true) ∨ trailerMax < v.pending.length - start then .error .chain
    else
      match parseTrailer (v.pending.drop start) with
      | none => .error .chain
      | some tr =>
        match foldRest hash v.state v.pending start with
        | none => .error .chain
        | some state =>
          if tr.prev ≠ prev ∨ tr.hash ≠ state then .error .chain
          else checkSignature sign tr

/-- `fzn_log_pack_verify_signed_within` of a packed file; `fzn_log_pack_verify` is the one
without `sign` and without a bound. -/
def verifyPacked (z : Zstd) (hash : HashOps) (sign : Option SignOps) (unpackedMax : Option ℕ)
    (prev : Bytes32) (file : Bytes) (fuel : ℕ) : Option (Except PackErr Verified) :=
  (verifyLoop z hash unpackedMax fuel (verifyBegin z prev file)).map fun r =>
    r.bind (verifyFinish hash sign prev)

/-! ## The last line -/

/-- Empty, or ended by a newline. -/
def Closed (body : Bytes) : Prop := body = [] ∨ body.getLast? = some newline

theorem lineStart_le (bs : Bytes) (n : ℕ) : lineStart bs n ≤ n := by
  induction n with
  | zero => exact le_rfl
  | succ n ih =>
    unfold lineStart
    split
    next => exact le_rfl
    next => omega

/-- A last line begins a text or stands behind a newline. -/
theorem closed_take_lineStart (bs : Bytes) (n : ℕ) : Closed (bs.take (lineStart bs n)) := by
  induction n with
  | zero => exact Or.inl rfl
  | succ n ih =>
    unfold lineStart
    split
    next h =>
      obtain ⟨hlt, hget⟩ := List.getElem?_eq_some_iff.1 h
      refine Or.inr ?_
      rw [List.take_add_one, h]
      simp
    next => exact ih

/-- What is inside a line does not begin one. -/
theorem lineStart_of_inside {mid w : Bytes} (rest : Bytes) (hmid : Closed mid)
    (hw : newline ∉ w) : lineStart (mid ++ (w ++ rest)) (mid.length + w.length) = mid.length := by
  induction w using List.reverseRecOn generalizing rest with
  | nil =>
    rcases hmid with rfl | hlast
    · rfl
    · obtain ⟨mid', rfl⟩ := List.getLast?_eq_some_iff.1 hlast
      rw [List.nil_append, List.length_append, List.length_singleton, List.length_nil,
        Nat.add_zero, lineStart, List.append_assoc, List.getElem?_append_right le_rfl]
      simp
  | append_singleton w d ih =>
    rw [List.mem_append, not_or, List.mem_singleton] at hw
    have hget : (mid ++ (w ++ [d] ++ rest))[mid.length + w.length]? = some d := by
      rw [List.getElem?_append_right (by omega), Nat.add_sub_cancel_left, List.append_assoc,
        List.getElem?_append_right le_rfl]
      simp
    rw [List.length_append, List.length_singleton, ← Nat.add_assoc, lineStart, hget, if_neg]
    · rw [List.append_assoc w]
      exact ih (d :: rest) hw.1
    · intro h
      exact hw.2 (Option.some.inj h).symm

/-- **A trailer is found** where it stands behind whole lines. -/
theorem lineStart_trailer {mid line : Bytes} {tr : Trailer} (hmid : Closed mid)
    (h : parseTrailer line = some tr) :
    lineStart (mid ++ line) ((mid ++ line).length - 1) = mid.length := by
  obtain ⟨w, rfl, hw, -⟩ := parseTrailer_some h
  have hnl : newline ∉ 35 :: w := by
    rw [List.mem_cons, not_or]
    exact ⟨by decide, fun hmem => (hw _ hmem).2 rfl⟩
  have hfound := lineStart_of_inside [newline] hmid hnl
  rw [show (mid ++ 35 :: (w ++ [newline])).length - 1 = mid.length + (35 :: w).length by
    simp]
  exact hfound

/-! ## What a check finds -/

/-- A content that ends in a trailer of the chain from `prev` over whole lines. -/
structure Sealed (hash : HashOps) (prev : Bytes32) (content body : Bytes) (tr : Trailer) :
    Prop where
  closed : Closed body
  line : ∃ line, content = body ++ line ∧ parseTrailer line = some tr
  from' : tr.prev = prev
  chain : chainOver hash prev body = some tr.hash

/-- A trailer is the last line behind whole lines in one way. -/
theorem trailer_unique {body body' line line' : Bytes} {tr tr' : Trailer}
    (h : body ++ line = body' ++ line') (hline : parseTrailer line = some tr)
    (hline' : parseTrailer line' = some tr') : body = body' ∧ line = line' := by
  obtain ⟨w, rfl, hw, -⟩ := parseTrailer_some hline
  obtain ⟨w', rfl, hw', -⟩ := parseTrailer_some hline'
  have hout : ∀ {u : Bytes}, (∀ c ∈ u, Inside c) → (35 : UInt8) ∉ u ++ [newline] := by
    intro u hu hmem
    rcases List.mem_append.1 hmem with hmem | hmem
    · exact (hu _ hmem).1 rfl
    · exact absurd (List.mem_singleton.1 hmem) (by decide)
  rcases List.append_eq_append_iff.1 h with ⟨a, ha, hb⟩ | ⟨a, ha, hb⟩
  · cases a with
    | nil => exact ⟨by simpa using ha.symm, by simpa using hb⟩
    | cons c a =>
      obtain ⟨-, htail⟩ := List.cons.inj hb
      exact absurd (htail ▸ List.mem_append_right a (List.mem_cons_self ..)) (hout hw)
  · cases a with
    | nil => exact ⟨by simpa using ha, by simpa using hb.symm⟩
    | cons c a =>
      obtain ⟨-, htail⟩ := List.cons.inj hb
      exact absurd (htail ▸ List.mem_append_right a (List.mem_cons_self ..)) (hout hw')

/-- **What the packer writes is sealed only behind whole lines**, and from its own prev. -/
theorem sealed_line_iff {hash : HashOps} {prev h : Bytes32} {segment : Bytes}
    (sig : Option (Key × Sig)) (r : Option Repacked) (hchain : chainOver hash prev segment = some h)
    (prev' : Bytes32) (tr : Trailer) :
    (∃ body, Sealed hash prev' (segment ++ trailerLine prev h r sig) body tr) ↔
      Closed segment ∧ prev' = prev ∧ tr = ⟨prev, h, r, sig, trailerBase prev h r⟩ := by
  have hparse := parseTrailer_line prev h r sig
  constructor
  · rintro ⟨body, hclosed, ⟨line, hcontent, hline⟩, hprev, -⟩
    obtain ⟨rfl, rfl⟩ := trailer_unique hcontent hparse hline
    obtain rfl := Option.some.inj (hparse.symm.trans hline)
    exact ⟨hclosed, hprev.symm, rfl⟩
  · rintro ⟨hclosed, rfl, rfl⟩
    exact ⟨segment, hclosed, ⟨_, rfl, hparse⟩, rfl, hchain⟩

/-! ## The chain in chunks -/

theorem chunkLen_pos : 0 < chunkLen := by decide

theorem chainOver_nil (hash : HashOps) (prev : Bytes32) : chainOver hash prev [] = some prev := by
  rw [chainOver, pieces_nil chunkLen_pos]
  rfl

variable {hash : HashOps} {prev : Bytes32} {k : ℕ}

theorem chainOver_of_le {bs : Bytes} (h₀ : bs ≠ []) (h : bs.length ≤ chunkLen) :
    chainOver hash prev bs = foldChunk hash prev bs := by
  rw [chainOver, pieces_of_le h₀ h]
  simp

theorem chainOver_append {a b : Bytes} (h : a.length = k * chunkLen) :
    chainOver hash prev (a ++ b) = (chainOver hash prev a).bind fun st => chainOver hash st b := by
  rw [chainOver, pieces_append chunkLen_pos h, List.foldlM_append]
  rfl

/-- What is before the last line of the window is folded as the packer folded it. -/
theorem foldRest_eq {state : Bytes32} {pending : Bytes} {start : ℕ}
    (hstart : start ≤ pending.length) (hlen : pending.length ≤ windowLen) :
    foldRest hash state pending start = chainOver hash state (pending.take start) := by
  unfold foldRest
  have htwo : windowLen ≤ 2 * chunkLen := by decide
  split
  next h =>
    have hfront : (pending.take chunkLen).length = 1 * chunkLen := by
      rw [List.length_take]
      omega
    have hrest : ((pending.drop chunkLen).take (start - chunkLen)).length = start - chunkLen := by
      rw [List.length_take, List.length_drop]
      omega
    have hcut : pending.take start =
        pending.take chunkLen ++ (pending.drop chunkLen).take (start - chunkLen) := by
      rw [← List.take_add, Nat.add_sub_cancel' (Nat.le_of_lt h)]
    have hc := chunkLen_pos
    rw [hcut, chainOver_append hfront, chainOver_of_le _ (by omega)]
    · refine congrArg _ (funext fun st => ?_)
      refine (chainOver_of_le ?_ (by omega)).symm
      rw [Ne, ← List.length_eq_zero_iff]
      omega
    · rw [Ne, ← List.length_eq_zero_iff]
      omega
  next h =>
    split
    next h₀ =>
      have hfront : (pending.take start).length = start := by
        rw [List.length_take]
        omega
      refine (chainOver_of_le ?_ (by omega)).symm
      rw [Ne, ← List.length_eq_zero_iff]
      omega
    next h₀ =>
      rw [not_not.1 h₀, List.take_zero, chainOver_nil]

/-! ## The end of a check -/

/-- The window over what was unpacked: whole chunks folded, and the rest held, of which a
trailer's length at least once something was folded. -/
structure Window {z : Zstd} (hash : HashOps) (prev : Bytes32) (given : Bytes) (k : ℕ)
    (v : Verifying z) : Prop where
  cut : ∃ front, given = front ++ v.pending ∧ front.length = k * chunkLen ∧
    chainOver hash prev front = some v.state
  room : v.pending.length < windowLen
  folded : v.folded = decide (0 < k)
  kept : 0 < k → trailerMax ≤ v.pending.length

/-- What the window's chain is continued to. -/
theorem Window.foldRest_eq {z : Zstd} {content : Bytes} {v : Verifying z}
    (h : Window hash prev content k v) {front : Bytes} (hfront : front.length = k * chunkLen)
    (hstate : chainOver hash prev front = some v.state) {start : ℕ}
    (hstart : start ≤ v.pending.length) :
    foldRest hash v.state v.pending start =
      chainOver hash prev (front ++ v.pending.take start) := by
  rw [Log.foldRest_eq hstart h.room.le, chainOver_append hfront, hstate, Option.bind_some]

/-- **A sealed content's** signature is what is left to check. -/
theorem Window.finish_sealed {z : Zstd} {sign : Option SignOps} {content body : Bytes}
    {tr : Trailer} {v : Verifying z} (h : Window hash prev content k v) (hlast : v.last = 0)
    (hs : Sealed hash prev content body tr) :
    verifyFinish hash sign prev v = checkSignature sign tr := by
  obtain ⟨front, rfl, hfront, hstate⟩ := h.cut
  obtain ⟨hclosed, ⟨line, hcontent, hparse⟩, hprev, hchain⟩ := hs
  rw [verifyFinish, if_neg (by simp [hlast])]
  obtain ⟨w, hw, hinside, hshort⟩ := parseTrailer_some hparse
  -- The trailer is in the window, with a byte in front of it once something was folded.
  obtain ⟨mid, hmid, hbody, hclear⟩ : ∃ mid, v.pending = mid ++ line ∧ body = front ++ mid ∧
      (0 < k → mid ≠ []) := by
    have hle : front.length ≤ body.length := by
      have hlen := congrArg List.length hcontent
      rw [List.length_append, List.length_append] at hlen
      rcases Nat.eq_zero_or_pos k with hk | hk
      · rw [hfront, hk, Nat.zero_mul]
        exact Nat.zero_le _
      · have := h.kept hk
        omega
    obtain ⟨mid, rfl⟩ : front <+: body :=
      List.prefix_of_prefix_length_le (List.prefix_append front v.pending)
        (hcontent ▸ List.prefix_append body line) hle
    rw [List.append_assoc] at hcontent
    refine ⟨mid, List.append_cancel_left hcontent, rfl, fun hk hnil => ?_⟩
    have hpending := List.append_cancel_left hcontent
    rw [hnil, List.nil_append] at hpending
    have := h.kept hk
    rw [hpending] at this
    omega
  have hmidClosed : Closed mid := by
    rcases eq_or_ne mid [] with hnil | hne
    · exact Or.inl hnil
    · rcases hclosed with hnil | hlast
      · rw [hbody, List.append_eq_nil_iff] at hnil
        exact absurd hnil.2 hne
      · rw [hbody, List.getLast?_append_of_ne_nil _ hne] at hlast
        exact Or.inr hlast
  have hfound := lineStart_trailer hmidClosed hparse
  rw [← hmid] at hfound
  have hlen : v.pending.length = mid.length + line.length := by
    rw [hmid, List.length_append]
  have hlineLen : 2 ≤ line.length := by
    rw [hw]
    simp
  rw [if_neg (by omega)]
  dsimp only
  rw [hfound, if_neg, hmid, List.drop_left, hparse]
  · dsimp only
    rw [← hmid, h.foldRest_eq hfront hstate (by omega), hmid, List.take_left, ← hbody, hchain]
    dsimp only
    rw [if_neg (by simp [hprev])]
  · rw [not_or, not_and]
    refine ⟨fun h₀ hf => ?_, by omega⟩
    rw [h.folded, decide_eq_true_eq] at hf
    exact hclear hf (List.length_eq_zero_iff.1 h₀)

/-- A check that does not end on a chain error found its content sealed. -/
theorem Window.finish_cases {z : Zstd} {sign : Option SignOps} {content : Bytes} {v : Verifying z}
    (h : Window hash prev content k v) (hlast : v.last = 0) :
    verifyFinish hash sign prev v = .error .chain ∨
      ∃ body tr, Sealed hash prev content body tr ∧
        verifyFinish hash sign prev v = checkSignature sign tr := by
  obtain ⟨front, rfl, hfront, hstate⟩ := h.cut
  rw [verifyFinish, if_neg (by simp [hlast])]
  split
  next => exact Or.inl rfl
  next hlen =>
    dsimp only
    generalize hs : lineStart v.pending (v.pending.length - 1) = start
    have hstart : start ≤ v.pending.length := by
      have := lineStart_le v.pending (v.pending.length - 1)
      omega
    split
    next => exact Or.inl rfl
    next hline =>
      rw [not_or, not_and] at hline
      split
      next => exact Or.inl rfl
      next tr hparse =>
        rw [h.foldRest_eq hfront hstate hstart]
        split
        next => exact Or.inl rfl
        next state hchain =>
          split
          next => exact Or.inl rfl
          next heq =>
            rw [not_or, not_not, not_not] at heq
            obtain ⟨hprev, rfl⟩ := heq
            refine Or.inr ⟨front ++ v.pending.take start, tr,
              ⟨?_, ⟨_, ?_, hparse⟩, hprev, hchain⟩, rfl⟩
            · rcases Nat.eq_zero_or_pos start with h₀ | hpos
              · have hk : k = 0 := by
                  have hnot := hline.1 h₀
                  rw [h.folded] at hnot
                  simpa using hnot
                rw [hk, Nat.zero_mul, List.length_eq_zero_iff] at hfront
                exact Or.inl (by rw [hfront, h₀]; rfl)
              · have hclosed := closed_take_lineStart v.pending (v.pending.length - 1)
                rw [hs] at hclosed
                rcases hclosed with hnil | hlast
                · have := congrArg List.length hnil
                  rw [List.length_take, List.length_nil] at this
                  omega
                · exact Or.inr (by rw [List.getLast?_append, hlast]; rfl)
            · rw [List.append_assoc, List.take_append_drop]

/-- **The end of a check** answers OK for a sealed content, and for no other. -/
theorem verifyFinish_iff {z : Zstd} {sign : Option SignOps} {content : Bytes} {v : Verifying z}
    {r : Verified} (h : Window hash prev content k v) (hlast : v.last = 0) :
    verifyFinish hash sign prev v = .ok r ↔
      ∃ body tr, Sealed hash prev content body tr ∧ checkSignature sign tr = .ok r := by
  constructor
  · intro hok
    rcases h.finish_cases hlast with hchain | ⟨body, tr, hs, hfinish⟩
    · exact absurd (hchain.symm.trans hok) (by simp)
    · exact ⟨body, tr, hs, hfinish.symm.trans hok⟩
  · rintro ⟨body, tr, hs, hsig⟩
    rw [h.finish_sealed hlast hs, hsig]

/-! ## In steps

A step unpacks no more bytes than it says, so each call of zstd has the room the window or the
budget leaves, whichever is less, and a step ends where its budget does, or where the check
does. -/

variable {z : Zstd} {hash : HashOps} {unpackedMax : Option ℕ}

/-- Where a turn calls zstd: more of the file is read only once zstd has given out all it
holds.  None at the file's end. -/
def ready (v : Verifying z) : Option (Verifying z) :=
  if v.input = [] ∧ v.outFull = false then
    if v.unread = [] then none
    else some { v with input := v.unread.take inbufLen, unread := v.unread.drop inbufLen }
  else some v

/-- What a call into `room` bytes leaves, before a full window is folded. -/
def calledInto (z : Zstd) (room : ℕ) (v : Verifying z) (last : ℕ) : Verifying z :=
  let u := z.decompress v.stream v.input room
  { v with
    input := v.input.drop u.taken
    stream := u.stream
    pending := v.pending ++ u.out
    unpacked := v.unpacked + u.out.length
    last := last
    outFull := decide (u.out.length = room) }

/-- A part of the frame unpacked into `room` bytes, the bound asked, and a full window's
first chunk folded. -/
def unpackInto (z : Zstd) (hash : HashOps) (unpackedMax : Option ℕ) (room : ℕ)
    (v : Verifying z) : Turn z :=
  match (z.decompress v.stream v.input room).last with
  | none => .failed .zstd
  | some last =>
    let v' := calledInto z room v last
    if passes unpackedMax v'.unpacked then .failed .tooLarge
    else if v'.pending.length = windowLen then
      match foldChunk hash v.state (v'.pending.take chunkLen) with
      | none => .failed .chain
      | some state =>
        .more { v' with state := state, pending := v'.pending.drop chunkLen, folded := true }
    else .more v'

/-- The room of a call: what the window has left, and no more than the budget has. -/
def roomLeft (limit : ℕ) (v : Verifying z) : ℕ :=
  min (windowLen - v.pending.length) (limit - v.unpacked)

/-- A turn of the loop of a step that ends at `limit` bytes. -/
def stepTurn (z : Zstd) (hash : HashOps) (unpackedMax : Option ℕ) (limit : ℕ)
    (v : Verifying z) : Turn z :=
  match ready v with
  | none => .ended v
  | some v' => unpackInto z hash unpackedMax (roomLeft limit v') v'

/-- The loop of a step: `.more` where its budget is used up.  None where `fuel` turns are not
enough. -/
def stepLoop (z : Zstd) (hash : HashOps) (unpackedMax : Option ℕ) (limit : ℕ) :
    ℕ → Verifying z → Option (Turn z)
  | 0, _ => none
  | fuel + 1, v =>
    if v.unpacked < limit then
      match stepTurn z hash unpackedMax limit v with
      | .more v => stepLoop z hash unpackedMax limit fuel v
      | r => some r
    else some (.more v)

/-- `UINT64_MAX`. -/
def uintMax : ℕ := 2 ^ 64 - 1

/-- Where a step ends, the sum that wraps being `UINT64_MAX`. -/
def stepUntil (unpacked : ℕ) (budget : UInt64) : ℕ :=
  if (unpacked + budget.toNat) % 2 ^ 64 < unpacked then uintMax
  else (unpacked + budget.toNat) % 2 ^ 64

/-- What a step sets `*done` to: not yet, or with the check's answer. -/
inductive Stepped (z : Zstd)
  | more (v : Verifying z)
  | done (r : Except PackErr Verified)

/-- What a step's loop leaves, and the last line once the frame has ended. -/
def afterLoop (hash : HashOps) (sign : Option SignOps) (prev : Bytes32) : Turn z → Stepped z
  | .more v => .more v
  | .ended v => .done (verifyFinish hash sign prev v)
  | .failed err => .done (.error err)

/-- `fzn_log_pack_verify_step`. -/
def verifyStep (z : Zstd) (hash : HashOps) (sign : Option SignOps) (unpackedMax : Option ℕ)
    (prev : Bytes32) (fuel : ℕ) (v : Verifying z) (budget : UInt64) : Option (Stepped z) :=
  (stepLoop z hash unpackedMax (stepUntil v.unpacked budget) fuel v).map
    (afterLoop hash sign prev)

/-- Steps with these budgets, until one is done. -/
def verifySteps (z : Zstd) (hash : HashOps) (sign : Option SignOps) (unpackedMax : Option ℕ)
    (prev : Bytes32) (fuel : ℕ) : List UInt64 → Verifying z → Option (Stepped z)
  | [], v => some (.more v)
  | budget :: budgets, v =>
    (verifyStep z hash sign unpackedMax prev fuel v budget).bind fun
      | .more v => verifySteps z hash sign unpackedMax prev fuel budgets v
      | .done r => some (.done r)

/-! ## The check of a whole content -/

/-- **The check at once**: the content's last line is a trailer from `prev`, over the chain of
what is before it. -/
def verifyAtOnce (hash : HashOps) (sign : Option SignOps) (unpackedMax : Option ℕ)
    (prev : Bytes32) (content : Bytes) : Except PackErr Verified :=
  if passes unpackedMax content.length then .error .tooLarge
  else
    let start := lineStart content (content.length - 1)
    match parseTrailer (content.drop start) with
    | none => .error .chain
    | some tr =>
      if tr.prev = prev ∧ chainOver hash prev (content.take start) = some tr.hash then
        checkSignature sign tr
      else .error .chain

end Log
end Fuzznet
