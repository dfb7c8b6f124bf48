/-
# The window over a frame

`fzn_log_pack_verify_step` run from a packed file's first byte to its end, for any parts
zstd gives the content out in.  What is known between two turns is `Reading`: how much of
the frame was taken and of the content given, and that the window over it is right.  A turn
keeps it or ends the check (`verifyTurn_reading`), and each makes something smaller, so the
check comes to an end (`verifyLoop_done`).

A check of a frame answers OK when its content is sealed, unless the content's last byte
fills the window (`EndsFull`).  The loop reads a full window as more to come and calls zstd
once more; that begins another frame, and a check that ends inside a frame is refused.
-/

import Fuzznet.Lib.Runs
import Fuzznet.Log.Pack

namespace Fuzznet
namespace Log

open Wire Lib

variable {z : Zstd} {hash : HashOps} {prev : Bytes32} {frame content : Bytes}
variable {At : z.Stream → ℕ → ℕ → Prop} {i fed given k : ℕ} {v : Verifying z}

/-- Where the last read of a file begins. -/
def lastRead (frame : Bytes) : ℕ := (frame.length - 1) / inbufLen * inbufLen

/-- The last byte of a content fills the window, in the last read of its frame. -/
def EndsFull (z : Zstd) (frame content : Bytes) : Prop :=
  windowLen ≤ content.length ∧ content.length % chunkLen = trailerMax ∧
    z.decoded frame (lastRead frame) < content.length

/-- As `EndsFull`, or the content's last byte is the last one of a step that ends at `limit`. -/
def EndsEdge (z : Zstd) (frame content : Bytes) (limit : ℕ) : Prop :=
  (windowLen ≤ content.length ∧ content.length % chunkLen = trailerMax ∨
    content.length = limit) ∧ z.decoded frame (lastRead frame) < content.length

/-- Where the file and the stream stand when zstd is called: `i` reads of the file made,
`fed` bytes of the frame taken and `given` of the content out. -/
structure Feed (frame : Bytes) (At : z.Stream → ℕ → ℕ → Prop) (i fed given : ℕ)
    (v : Verifying z) : Prop where
  at' : At v.stream fed given
  input : v.input <+: frame.drop fed
  fedLe : fed ≤ frame.length
  unread : v.unread = frame.drop (fed + v.input.length)
  readTo : fed + v.input.length = min (i * inbufLen) frame.length
  begun : 0 < i → (i - 1) * inbufLen < frame.length ∧ z.decoded frame ((i - 1) * inbufLen) ≤ given
  givenLe : given ≤ z.decoded frame (fed + v.input.length)
  drained : given = z.decoded frame (fed + v.input.length) →
    v.input = [] ∨ given ≤ z.decoded frame ((i - 1) * inbufLen)

/-- What is known between two turns. -/
structure Reading (hash : HashOps) (prev : Bytes32) (frame content : Bytes)
    (At : z.Stream → ℕ → ℕ → Prop) (i fed given k : ℕ) (v : Verifying z) : Prop where
  feed : Feed frame At i fed given v
  dry : v.outFull = false → v.input = [] → given = z.decoded frame (fed + v.input.length)
  last : v.last = 0 ↔ fed = frame.length ∧ given = content.length
  ends : fed = frame.length → given = content.length →
    (v.outFull = true ↔ EndsFull z frame content)
  window : Window hash prev (content.take given) k v

/-- What is known behind a call of a step that ends at `limit` bytes. -/
structure Asked (frame content : Bytes) (At : z.Stream → ℕ → ℕ → Prop)
    (limit i fed given : ℕ) (v : Verifying z) : Prop where
  feed : Feed frame At i fed given v
  dry : v.outFull = false → v.input = [] → given = z.decoded frame (fed + v.input.length)
  last : v.last = 0 ↔ fed = frame.length ∧ given = content.length
  ends : fed = frame.length → given = content.length →
    (v.outFull = true ↔ EndsEdge z frame content limit)
  givenLe : given ≤ content.length
  under : given ≤ limit
  quiet : v.outFull = false → given < limit

/-- What a turn makes smaller: what is unread, not taken, not given out, or asked again. -/
def toDo (content : Bytes) (given : ℕ) (v : Verifying z) : ℕ :=
  3 * v.unread.length + 2 * v.input.length + 2 * (content.length - given) + v.outFull.toNat

/-- A fold that refuses: the chain over whole chunks in front of any trailer has no value. -/
def FoldRefused (hash : HashOps) (prev : Bytes32) (content : Bytes) : Prop :=
  ∃ j, j * chunkLen + trailerMax ≤ content.length ∧
    chainOver hash prev (content.take (j * chunkLen)) = none

/-- As `FoldRefused`, where the bound on what is unpacked does not stop the check before. -/
def RefusedWithin (hash : HashOps) (prev : Bytes32) (unpackedMax : Option ℕ) (content : Bytes) :
    Prop :=
  ∃ j, j * chunkLen + trailerMax ≤ content.length ∧
    ¬ passes unpackedMax (j * chunkLen + trailerMax) ∧
    chainOver hash prev (content.take (j * chunkLen)) = none

theorem not_passes_none (n : ℕ) : ¬ passes none n := by
  rintro ⟨_, h, -⟩
  cases h

variable {unpackedMax : Option ℕ}

theorem passes.mono {a b : ℕ} (h : passes unpackedMax a) (hle : a ≤ b) : passes unpackedMax b := by
  obtain ⟨m, hm, hlt⟩ := h
  exact ⟨m, hm, hlt.trans_le hle⟩

theorem RefusedWithin.refused (h : RefusedWithin hash prev unpackedMax content) :
    FoldRefused hash prev content := by
  obtain ⟨j, hj, -, hnone⟩ := h
  exact ⟨j, hj, hnone⟩

/-- What the hash refuses is sealed by no trailer. -/
theorem FoldRefused.not_sealed (h : FoldRefused hash prev content) (body : Bytes) (tr : Trailer) :
    ¬ Sealed hash prev content body tr := by
  obtain ⟨j, hj, hnone⟩ := h
  rintro ⟨-, ⟨line, hcontent, hparse⟩, -, hchain⟩
  obtain ⟨-, -, -, hshort⟩ := parseTrailer_some hparse
  have hlong : j * chunkLen ≤ body.length := by
    rw [hcontent, List.length_append] at hj
    omega
  have hfront : (body.take (j * chunkLen)).length = j * chunkLen := by
    rw [List.length_take]
    omega
  rw [hcontent, List.take_append_of_le_length hlong] at hnone
  rw [← List.take_append_drop (j * chunkLen) body, chainOver_append hfront, hnone] at hchain
  cases hchain

theorem endsEdge_iff {limit : ℕ} (h : content.length < limit) :
    EndsEdge z frame content limit ↔ EndsFull z frame content := by
  rw [EndsEdge, EndsFull, or_iff_left h.ne, and_assoc]

theorem reading_begin (hz : z.Unpacks frame content At) (hne : content ≠ []) :
    Reading hash prev frame content At 0 0 0 0 (verifyBegin z prev frame) := by
  have hpos := List.length_pos_of_ne_nil hne
  refine ⟨⟨hz.start, List.nil_prefix, Nat.zero_le _, rfl, by simp [verifyBegin], by omega,
    Nat.zero_le _, fun _ => Or.inl rfl⟩, ?_, ?_, ?_, ?_⟩
  · intro _ _
    exact hz.none.symm
  · simp only [verifyBegin]
    omega
  · omega
  · exact ⟨⟨[], rfl, by simp, chainOver_nil hash prev⟩, Nat.zero_lt_succ _, rfl, by omega⟩

theorem lastRead_eq (hpos : 0 < i) (hlt : (i - 1) * inbufLen < frame.length)
    (hle : frame.length ≤ i * inbufLen) : lastRead frame = (i - 1) * inbufLen := by
  have hi : i * inbufLen = (i - 1) * inbufLen + inbufLen := by
    rw [← Nat.succ_mul, Nat.succ_eq_add_one, Nat.sub_add_cancel hpos]
  have hdiv : (frame.length - 1) / inbufLen = i - 1 := by
    rw [Nat.div_eq_iff (by decide)]
    omega
  rw [lastRead, hdiv]

theorem Feed.decoded_le (hz : z.Unpacks frame content At) (h : Feed frame At i fed given v) :
    z.decoded frame (fed + v.input.length) ≤ content.length := by
  rw [← hz.whole]
  exact hz.mono _ _ (by rw [h.readTo]; exact min_le_right _ _)

theorem Window.given_eq (h : Window hash prev (content.take given) k v)
    (hle : given ≤ content.length) : given = k * chunkLen + v.pending.length := by
  obtain ⟨front, hcut, hfront, -⟩ := h.cut
  have hlen := congrArg List.length hcut
  rw [List.length_append, hfront, List.length_take] at hlen
  omega

/-- A content that fills a window of `C + T` behind `n` whole chunks is a trailer's length
longer than whole chunks; one that long and does not fill it was given out before. -/
theorem fills_window {C T n p m len : ℕ} (hT : T < C) (hp : p < C + T) (hlen : n * C + p + m = len)
    (hm : m ≤ C + T - p) (hkept : 0 < n → T ≤ p) :
    (m = C + T - p → C + T ≤ len ∧ len % C = T) ∧
      (C + T ≤ len → len % C = T → m ≠ C + T - p → m = 0) := by
  refine ⟨fun hfull => ?_, fun hlong hmod hnot => ?_⟩
  · have heq : len = T + C * (n + 1) := by
      rw [Nat.mul_comm, Nat.succ_mul]
      omega
    refine ⟨?_, by rw [heq, Nat.add_mul_mod_self_left, Nat.mod_eq_of_lt hT]⟩
    have : 0 ≤ n * C := Nat.zero_le _
    omega
  · have hdiv := Nat.div_add_mod len C
    rw [hmod] at hdiv
    generalize len / C = q at hdiv
    have hqn : q ≤ n := by
      by_contra hlt
      have := Nat.mul_le_mul_left C (Nat.lt_of_not_le hlt)
      rw [Nat.mul_succ, Nat.mul_comm C n] at this
      omega
    have hnq : n * C ≤ C * q := by
      rcases Nat.eq_zero_or_pos n with rfl | hn
      · rw [Nat.zero_mul]
        exact Nat.zero_le _
      · have := hkept hn
        rw [Nat.mul_comm C q]
        refine Nat.mul_le_mul_right C (Nat.le_of_not_lt fun hlt => ?_)
        have := Nat.mul_le_mul_left C (Nat.succ_le_of_lt hlt)
        rw [Nat.mul_succ, Nat.mul_comm C n] at this
        omega
    have hn : 0 < n := by
      rcases Nat.eq_zero_or_pos n with rfl | hn
      · rw [Nat.le_zero.1 hqn, Nat.mul_zero] at hdiv
        omega
      · exact hn
    have hCq : C * q ≤ n * C := by
      rw [Nat.mul_comm]
      exact Nat.mul_le_mul_right C hqn
    have := hkept hn
    omega

/-- The frame's last byte taken with the content's: the call's room was filled by it if and
only if the content ends with the window, or with the step. -/
theorem Feed.ends (hz : z.Unpacks frame content At) (h : Feed frame At i fed given v)
    (hwin : Window hash prev (content.take given) k v)
    (hmore : ¬ (fed = frame.length ∧ given = content.length)) {m limit : ℕ}
    (hlimit : given < limit) (hbegun : 0 < i) (hread : frame.length ≤ fed + v.input.length)
    (hm : given + m = content.length)
    (hroom : m ≤ min (windowLen - v.pending.length) (limit - given)) :
    m = min (windowLen - v.pending.length) (limit - given) ↔
      EndsEdge z frame content limit := by
  have hgiven := hwin.given_eq (Nat.le.intro hm)
  obtain ⟨hlt, hfirst⟩ := h.begun hbegun
  have hto := h.readTo
  have hend : fed + v.input.length = frame.length :=
    Nat.le_antisymm (hto.le.trans (min_le_right _ _)) hread
  have hlast := lastRead_eq hbegun hlt (hend ▸ hto.le.trans (min_le_left _ _))
  have hdec : z.decoded frame (fed + v.input.length) = content.length := by rw [hend, hz.whole]
  have hwindow := hwin.room
  obtain ⟨hfills, hgone⟩ := fills_window (T := trailerMax) (C := chunkLen) (by decide) hwin.room
    (hgiven ▸ hm) (hroom.trans (min_le_left _ _)) hwin.kept
  have hw : chunkLen + trailerMax = windowLen := rfl
  rw [hw] at hfills hgone
  constructor
  · intro hfull
    refine ⟨?_, ?_⟩
    · rcases Nat.le_total (windowLen - v.pending.length) (limit - given) with hle | hle
      · rw [min_eq_left hle] at hfull
        exact Or.inl (hfills hfull)
      · rw [min_eq_right hle] at hfull
        exact Or.inr (by omega)
    · rw [hlast]
      have hpos : 0 < m := by omega
      exact hfirst.trans_lt (Nat.lt_of_lt_of_eq (Nat.lt_add_of_pos_right hpos) hm)
  · rintro ⟨hedge, hless⟩
    -- All was given out before this call: by one that took all there was, or in an older read.
    by_contra hnot
    have hall : given = content.length := by
      rcases hedge with ⟨hlarge, hmod⟩ | hstop
      · have := hgone hlarge hmod (by omega)
        omega
      · omega
    rcases h.drained (hall.trans hdec.symm) with hnil | hold
    · rw [hnil, List.length_nil, Nat.add_zero] at hend
      exact hmore ⟨hend, hall⟩
    · rw [hlast] at hless
      exact absurd (hall ▸ hold) (Nat.not_le.2 hless)

/-- A turn without a budget has the room the window leaves. -/
theorem unpackStep_eq (unpackedMax : Option ℕ) (v : Verifying z) :
    unpackStep z hash unpackedMax v =
      unpackInto z hash unpackedMax (windowLen - v.pending.length) v := rfl

theorem verifyTurn_eq (unpackedMax : Option ℕ) (v : Verifying z) :
    verifyTurn z hash unpackedMax v =
      match ready v with
      | none => .ended v
      | some v' => unpackStep z hash unpackedMax v' := by
  unfold verifyTurn ready
  split
  next =>
    split
    next => rfl
    next => rfl
  next => rfl

/-- **A call** moves what is known of the file and the stream, and makes what is to do
smaller. -/
theorem Feed.call (hz : z.Unpacks frame content At) (h : Feed frame At i fed given v)
    (hwin : Window hash prev (content.take given) k v)
    (hmore : ¬ (fed = frame.length ∧ given = content.length))
    (hask : v.input ≠ [] ∨ v.outFull = true) {limit room : ℕ} (hlimit : given < limit)
    (hroom : room = min (windowLen - v.pending.length) (limit - given)) :
    ∃ last fed' given', (z.decompress v.stream v.input room).last = some last ∧
      given' = given + (z.decompress v.stream v.input room).out.length ∧
      (z.decompress v.stream v.input room).out.length ≤ room ∧
      content.take given' = content.take given ++ (z.decompress v.stream v.input room).out ∧
      Asked frame content At limit i fed' given' (calledInto z room v last) ∧
      toDo content given' (calledInto z room v last) < toDo content given v := by
  have hcall := hz.call v.stream fed given v.input room h.at' hmore h.input
  have hd := h.decoded_le hz
  have hends := fun m => h.ends (m := m) hz hwin hmore hlimit
  rw [← hroom] at hends
  unfold calledInto
  generalize z.decompress v.stream v.input room = u at hcall
  have hpos : 0 < room := by
    have := hwin.room
    omega
  have hstop : room ≤ limit - given := hroom ▸ min_le_right _ _
  obtain ⟨last, hlast, hzero⟩ := hcall.last
  have hlen : u.out.length = min room (z.decoded frame (fed + v.input.length) - given) := by
    rw [hcall.out, List.length_take, List.length_drop]
    omega
  have hgivenLe := h.givenLe
  have htaken := hcall.taken
  have hall := hcall.all
  have hinput : (v.input.drop u.taken).length = v.input.length - u.taken := List.length_drop
  have hsame : fed + u.taken + (v.input.drop u.taken).length = fed + v.input.length := by omega
  have hfedLe := h.fedLe
  have hbound : fed + v.input.length ≤ frame.length := h.readTo.le.trans (min_le_right _ _)
  refine ⟨last, fed + u.taken, given + u.out.length, hlast, rfl, by omega, ?_,
    ⟨?_, ?_, hzero, ?_, by omega, by omega, ?_⟩, ?_⟩
  · have hout : (content.drop given).take u.out.length = u.out := by
      rw [hlen]
      exact hcall.out.symm
    rw [List.take_add, hout]
  · refine ⟨hcall.at', ?_, by omega, ?_, ?_, ?_, ?_, ?_⟩
    · obtain ⟨rest, hrest⟩ := h.input
      rw [← List.drop_drop, ← hrest, List.drop_append_of_le_length htaken]
      exact List.prefix_append _ _
    · dsimp only
      rw [hsame]
      exact h.unread
    · dsimp only
      rw [hsame]
      exact h.readTo
    · intro hi
      obtain ⟨hlt, hle⟩ := h.begun hi
      exact ⟨hlt, hle.trans (Nat.le_add_right _ _)⟩
    · dsimp only
      rw [hsame]
      omega
    · dsimp only
      rw [hsame]
      intro hdrained
      have htook := hall (by omega)
      rw [htook]
      exact Or.inl (List.drop_length)
  · dsimp only
    rw [hsame, decide_eq_false_iff_not]
    intro hnot hnil
    omega
  · intro hfed hgiven
    have hi : 0 < i := by
      rcases Nat.eq_zero_or_pos i with rfl | hi
      · have hnone := hz.none
        have hwhole := hz.whole
        have hto := h.readTo
        rw [Nat.zero_mul, Nat.zero_min] at hto
        rw [hto] at hgivenLe
        rw [show frame.length = 0 by omega] at hwhole
        exact absurd ⟨by omega, by omega⟩ hmore
      · exact hi
    rw [decide_eq_true_iff]
    exact hends _ hi (by omega) hgiven (by omega)
  · rw [decide_eq_false_iff_not]
    intro hnot
    omega
  · simp only [toDo, hinput]
    have hasked := Bool.toNat_le v.outFull
    rcases Nat.eq_zero_or_pos u.out.length with hnothing | hsome
    · -- Nothing came out: all input was taken, or zstd was only asked again.
      have htook := hall (by omega)
      have hquiet : decide (u.out.length = room) = false := by
        rw [decide_eq_false_iff_not]
        omega
      rw [hquiet, Bool.toNat_false]
      rcases hask with hne | hfull
      · have := List.length_pos_of_ne_nil hne
        omega
      · rw [hfull, Bool.toNat_true]
        omega
    · have hasks := Bool.toNat_le (decide (u.out.length = room))
      omega

/-! ## The fold behind a call -/

/-- A window that more was unpacked into, and that it did not fill. -/
theorem Window.grow (h : Window hash prev (content.take given) k v) {given' : ℕ} {out : Bytes}
    {w : Verifying z} (hpending : w.pending = v.pending ++ out) (hstate : w.state = v.state)
    (hfolded : w.folded = v.folded) (htake : content.take given' = content.take given ++ out)
    (hpart : w.pending.length < windowLen) : Window hash prev (content.take given') k w := by
  obtain ⟨front, hcut, hfront, hchain⟩ := h.cut
  refine ⟨⟨front, ?_, hfront, hstate ▸ hchain⟩, hpart, hfolded ▸ h.folded, fun hk => ?_⟩
  · rw [htake, hcut, hpending, List.append_assoc]
  · rw [hpending, List.length_append]
    exact (h.kept hk).trans (Nat.le_add_right _ _)

/-- The window is of the bytes held, the state and whether anything was folded. -/
theorem Window.congr {given : Bytes} (h : Window hash prev given k v) {w : Verifying z}
    (hpending : w.pending = v.pending) (hstate : w.state = v.state)
    (hfolded : w.folded = v.folded) : Window hash prev given k w :=
  ⟨by rw [hpending, hstate]; exact h.cut, by rw [hpending]; exact h.room,
    hfolded ▸ h.folded, by rw [hpending]; exact h.kept⟩

/-- **A full window** has one more of the content's chunks in front. -/
theorem Window.fold (h : Window hash prev (content.take given) k v) {given' : ℕ} {out : Bytes}
    {w : Verifying z} (hpending : w.pending = v.pending ++ out)
    (htake : content.take given' = content.take given ++ out)
    (hgiven' : given' ≤ content.length) (hfull : w.pending.length = windowLen) :
    (k + 1) * chunkLen + trailerMax = given' ∧
      chainOver hash prev (content.take ((k + 1) * chunkLen)) =
        foldChunk hash v.state (w.pending.take chunkLen) ∧
      ∀ state, foldChunk hash v.state (w.pending.take chunkLen) = some state →
        Window hash prev (content.take given') (k + 1)
          { w with state := state, pending := w.pending.drop chunkLen, folded := true } := by
  obtain ⟨front, hcut, hfront, hstate⟩ := h.cut
  have hw : windowLen = chunkLen + trailerMax := rfl
  have hchunk : (w.pending.take chunkLen).length = chunkLen := by
    rw [List.length_take]
    omega
  have hrest : (w.pending.drop chunkLen).length = trailerMax := by
    rw [List.length_drop, hfull, hw, Nat.add_sub_cancel_left]
  have hwhole : (front ++ w.pending.take chunkLen).length = (k + 1) * chunkLen := by
    rw [List.length_append, hfront, hchunk, Nat.succ_mul]
  have hchain : chainOver hash prev (front ++ w.pending.take chunkLen) =
      foldChunk hash v.state (w.pending.take chunkLen) := by
    rw [chainOver_append hfront, hstate, Option.bind_some, chainOver_of_le _ hchunk.le]
    rw [Ne, ← List.length_eq_zero_iff, hchunk]
    decide
  have hsplit : content.take given' = front ++ w.pending.take chunkLen ++
      w.pending.drop chunkLen := by
    rw [htake, hcut, List.append_assoc, List.append_assoc, List.take_append_drop, hpending]
  refine ⟨?_, ?_, fun state hsome => ⟨⟨_, hsplit, hwhole, hchain.trans hsome⟩, ?_,
    (decide_eq_true (Nat.succ_pos k)).symm, fun _ => hrest.ge⟩⟩
  · have hlong := congrArg List.length hsplit
    rw [List.length_append, hwhole, List.length_take, hrest] at hlong
    omega
  · have hfolds : content.take ((k + 1) * chunkLen) = front ++ w.pending.take chunkLen := by
      have hle : front ++ w.pending.take chunkLen <+: content :=
        (hsplit ▸ List.prefix_append _ _).trans (List.take_prefix given' content)
      rw [← hwhole]
      exact (List.prefix_iff_eq_take.1 hle).symm
    rw [hfolds, hchain]
  · show (w.pending.drop chunkLen).length < windowLen
    rw [hrest]
    decide

/-- What was folded was not refused. -/
theorem Window.not_refused (h : Window hash prev (content.take given) k v)
    (hgiven : given ≤ content.length) {j : ℕ} (hj : j ≤ k) :
    chainOver hash prev (content.take (j * chunkLen)) ≠ none := by
  intro hnone
  obtain ⟨front, hcut, hfront, hstate⟩ := h.cut
  have hprefix : front <+: content :=
    (hcut ▸ List.prefix_append _ _).trans (List.take_prefix given content)
  have hle : j * chunkLen ≤ k * chunkLen := Nat.mul_le_mul_right _ hj
  have hhead : (front.take (j * chunkLen)).length = j * chunkLen := by
    rw [List.length_take, hfront, min_eq_left hle]
  have hsame : content.take (j * chunkLen) = front.take (j * chunkLen) := by
    obtain ⟨rest, rfl⟩ := hprefix
    exact List.take_append_of_le_length (hle.trans hfront.ge)
  rw [hsame] at hnone
  rw [← List.take_append_drop (j * chunkLen) front, chainOver_append hhead, hnone] at hstate
  cases hstate

/-- Behind a call the fold changes nothing of what is known of the file and the stream. -/
theorem Asked.folded {limit : ℕ} (h : Asked frame content At limit i fed given v)
    (state : Bytes32) (pending : Bytes) : Asked frame content At limit i fed given
      { v with state := state, pending := pending, folded := true } :=
  ⟨⟨h.feed.at', h.feed.input, h.feed.fedLe, h.feed.unread, h.feed.readTo, h.feed.begun,
    h.feed.givenLe, h.feed.drained⟩, h.dry, h.last, h.ends, h.givenLe, h.under, h.quiet⟩

section

variable (hz : z.Unpacks frame content At) (h : Feed frame At i fed given v)
  (hwin : Window hash prev (content.take given) k v)
  (hmore : ¬ (fed = frame.length ∧ given = content.length)) (hask : v.input ≠ [] ∨ v.outFull = true)
include hz h hwin hmore hask

/-- **A call, the bound and the fold behind it** keep what is known, or the hash refuses, or
the bound is passed before the hash did. -/
theorem Feed.unpack {limit room : ℕ} (hlimit : given < limit)
    (hroom : room = min (windowLen - v.pending.length) (limit - given))
    (hcount : ∀ m ∈ unpackedMax, v.unpacked = given) :
    (unpackInto z hash unpackedMax room v = .failed .chain ∧
      RefusedWithin hash prev unpackedMax content) ∨
    (unpackInto z hash unpackedMax room v = .failed .tooLarge ∧
      passes unpackedMax content.length ∧ ¬ RefusedWithin hash prev unpackedMax content) ∨
    ∃ v' fed' given' k', unpackInto z hash unpackedMax room v = .more v' ∧
      Asked frame content At limit i fed' given' v' ∧
      Window hash prev (content.take given') k' v' ∧
      v'.unpacked + given = v.unpacked + given' ∧ ¬ passes unpackedMax v'.unpacked ∧
      toDo content given' v' < toDo content given v := by
  obtain ⟨last, fed', given', hlast, hgiven', hfits, htake, hasked, hless⟩ :=
    h.call hz hwin hmore hask hlimit hroom
  have hpending : (calledInto z room v last).pending =
    v.pending ++ (z.decompress v.stream v.input room).out := rfl
  have hunpacked : (calledInto z room v last).unpacked =
    v.unpacked + (z.decompress v.stream v.input room).out.length := rfl
  have hstate : (calledInto z room v last).state = v.state := rfl
  have hfolded : (calledInto z room v last).folded = v.folded := rfl
  have hgivenLe := hasked.givenLe
  have hwindow := hwin.room
  have hplace := hwin.given_eq (by omega : given ≤ content.length)
  have hw : windowLen = chunkLen + trailerMax := rfl
  have hlen := congrArg List.length hpending
  rw [List.length_append] at hlen
  unfold unpackInto
  rw [hlast]
  dsimp only
  generalize calledInto z room v last = w at *
  generalize (z.decompress v.stream v.input room).out = out at *
  have hpassed : ∀ n, passes unpackedMax n →
      (passes unpackedMax w.unpacked ↔ passes unpackedMax given') := by
    rintro n ⟨m, hm, -⟩
    rw [hunpacked, hcount m hm, hgiven']
  split
  next hpasses =>
    have hbound := (hpassed _ hpasses).1 hpasses
    refine Or.inr (Or.inl ⟨rfl, hbound.mono hgivenLe, ?_⟩)
    rintro ⟨j, -, hnot, hnone⟩
    refine hwin.not_refused (by omega) (Nat.lt_succ_iff.1 ?_) hnone
    -- A chunk folded within the bound was folded before this call.
    by_contra hjk
    have hmul := Nat.mul_le_mul_right chunkLen (Nat.not_lt.1 hjk)
    rw [Nat.succ_mul] at hmul
    exact hnot (hbound.mono (by omega))
  next hwithin =>
    split
    next hfull =>
      obtain ⟨hedge, hchain, hnext⟩ := hwin.fold hpending htake hgivenLe hfull
      split
      next hnone =>
        refine Or.inl ⟨rfl, k + 1, by omega, fun hpasses => ?_, hchain.trans hnone⟩
        rw [hedge] at hpasses
        exact hwithin ((hpassed _ hpasses).2 hpasses)
      next state hsome =>
        refine Or.inr (Or.inr ⟨_, fed', given', k + 1, rfl, hasked.folded _ _, hnext state hsome,
          ?_, hwithin, hless⟩)
        show w.unpacked + given = _
        omega
    next hpart =>
      exact Or.inr (Or.inr ⟨w, fed', given', k, rfl, hasked,
        hwin.grow hpending hstate hfolded htake (by omega), by omega, hwithin, hless⟩)

/-- A call without a budget, and the fold behind it. -/
theorem unpackStep_reading :
    (unpackStep z hash none v = .failed .chain ∧ FoldRefused hash prev content) ∨
    ∃ v' fed' given' k', unpackStep z hash none v = .more v' ∧
      Reading hash prev frame content At i fed' given' k' v' ∧
      toDo content given' v' < toDo content given v := by
  have hgivenLe : given ≤ content.length := h.givenLe.trans (h.decoded_le hz)
  have hpos : 0 < windowLen := by decide
  -- A step that ends a window behind the content never lacks the room.
  have hlimit : given < content.length + windowLen := by omega
  have hroom : windowLen - v.pending.length =
      min (windowLen - v.pending.length) (content.length + windowLen - given) := by omega
  have hcount : ∀ m ∈ (none : Option ℕ), v.unpacked = given := by
    rintro _ ⟨⟩
  rw [unpackStep_eq]
  rcases h.unpack hz hwin hmore hask hlimit hroom hcount with ⟨hfail, hrefused⟩ |
    ⟨-, hpasses, -⟩ | ⟨v', fed', given', k', hmore', hasked, hwin', -, -, hless⟩
  · exact Or.inl ⟨hfail, hrefused.refused⟩
  · exact absurd hpasses (not_passes_none _)
  · refine Or.inr ⟨v', fed', given', k', hmore', ⟨hasked.feed, hasked.dry, hasked.last, ?_, hwin'⟩,
      hless⟩
    intro hfed hgiven
    rw [hasked.ends hfed hgiven, endsEdge_iff (by omega)]

end

/-- One read more of a file that has more. -/
theorem read_more {n m f len : ℕ} (h : f = min (m * n) len) (hlt : f < len) :
    f = m * n ∧ f + min n (len - f) = min ((m + 1) * n) len := by
  rw [Nat.succ_mul]
  omega

/-- More of the file, once all that was read is taken and given out. -/
theorem Feed.read (hz : z.Unpacks frame content At) (hfeed : Feed frame At i fed given v)
    (hdry : v.outFull = false → v.input = [] → given = z.decoded frame (fed + v.input.length))
    (hnil : v.input = []) (hquiet : v.outFull = false) (hunread : v.unread ≠ []) :
    Feed frame At (i + 1) fed given
      { v with input := v.unread.take inbufLen, unread := v.unread.drop inbufLen } := by
  have hgiven := hdry hquiet hnil
  have hto := hfeed.readTo
  have hunreadEq := hfeed.unread
  rw [hnil, List.length_nil, Nat.add_zero] at hgiven hto hunreadEq
  have hpos := List.length_pos_of_ne_nil hunread
  have hlen : v.unread.length = frame.length - fed := by rw [hunreadEq, List.length_drop]
  have hlt : fed < frame.length := by
    rw [hlen] at hpos
    exact Nat.lt_of_sub_pos hpos
  have hread : (v.unread.take inbufLen).length = min inbufLen (frame.length - fed) := by
    rw [List.length_take, hlen]
  obtain ⟨hfed, hnext⟩ := read_more hto hlt
  refine ⟨hfeed.at', ?_, hfeed.fedLe, ?_, ?_, fun _ => ?_, ?_, fun _ => Or.inr ?_⟩
  · rw [← hunreadEq]
    exact List.take_prefix _ _
  · dsimp only
    rw [hread, hunreadEq, List.drop_drop]
    rcases Nat.le_total inbufLen (frame.length - fed) with hle | hle
    · rw [Nat.min_eq_left hle]
    · rw [Nat.min_eq_right hle, List.drop_of_length_le (Nat.sub_le_iff_le_add'.1 hle),
        List.drop_of_length_le (Nat.add_sub_cancel' hlt.le).ge]
  · dsimp only
    rw [hread]
    exact hnext
  · rw [Nat.add_sub_cancel, ← hfed]
    exact ⟨hlt, hgiven.ge⟩
  · dsimp only
    exact hgiven.le.trans (hz.mono _ _ (Nat.le_add_right _ _))
  · rw [Nat.add_sub_cancel, ← hfed]
    exact hgiven.le

/-- Where a turn of a frame that is not complete calls zstd. -/
theorem Feed.ready (hz : z.Unpacks frame content At) (h : Feed frame At i fed given v)
    (hdry : v.outFull = false → v.input = [] → given = z.decoded frame (fed + v.input.length))
    (hmore : ¬ (fed = frame.length ∧ given = content.length)) :
    ∃ input unread i', Log.ready v = some { v with input := input, unread := unread } ∧
      Feed frame At i' fed given { v with input := input, unread := unread } ∧
      (input ≠ [] ∨ v.outFull = true) ∧
      toDo content given { v with input := input, unread := unread } ≤ toDo content given v := by
  unfold Log.ready
  split
  next hidle =>
    obtain ⟨hnil, hquiet⟩ := hidle
    have hunreadEq := h.unread
    have hgiven := hdry hquiet hnil
    rw [hnil, List.length_nil, Nat.add_zero] at hunreadEq hgiven
    split
    next hend =>
      -- Behind the frame's end all of the content was given out.
      rw [hend] at hunreadEq
      have hfed : fed = frame.length := by
        have := congrArg List.length hunreadEq
        rw [List.length_drop, List.length_nil] at this
        have := h.fedLe
        omega
      exact absurd ⟨hfed, by rw [hgiven, hfed, hz.whole]⟩ hmore
    next hunread =>
      have htake : v.unread.take inbufLen ≠ [] := by
        rw [Ne, List.take_eq_nil_iff]
        exact not_or.2 ⟨by decide, hunread⟩
      refine ⟨_, _, i + 1, rfl, h.read hz hdry hnil hquiet hunread, Or.inl htake, ?_⟩
      simp only [toDo, hnil, List.length_nil, List.length_take, List.length_drop]
      omega
  next hbusy =>
    refine ⟨_, _, i, rfl, h, ?_, le_rfl⟩
    rcases eq_or_ne v.input [] with hnil | hne
    · rw [not_and] at hbusy
      exact Or.inr (by simpa using hbusy hnil)
    · exact Or.inl hne

/-- **A turn** keeps what is known, or the hash refuses. -/
theorem Reading.turn (hz : z.Unpacks frame content At)
    (h : Reading hash prev frame content At i fed given k v)
    (hmore : ¬ (fed = frame.length ∧ given = content.length)) :
    (verifyTurn z hash none v = .failed .chain ∧ FoldRefused hash prev content) ∨
    ∃ v' i' fed' given' k', verifyTurn z hash none v = .more v' ∧
      Reading hash prev frame content At i' fed' given' k' v' ∧
      toDo content given' v' < toDo content given v := by
  obtain ⟨input, unread, i', hready, hfeed, hask, hle⟩ := h.feed.ready hz h.dry hmore
  have hwin := h.window
  rw [verifyTurn_eq, hready]
  rcases unpackStep_reading hz hfeed ⟨hwin.cut, hwin.room, hwin.folded, hwin.kept⟩ hmore hask with
    hfail | ⟨v', fed', given', k', heq, hread, hless⟩
  · exact Or.inl hfail
  · exact Or.inr ⟨v', i', fed', given', k', heq, hread, hless.trans_le hle⟩

/-- What a check comes to before its last line is looked at. -/
def Done (hash : HashOps) (prev : Bytes32) (frame content : Bytes)
    (r : Except PackErr (Verifying z)) : Prop :=
  (r = .error .chain ∧ FoldRefused hash prev content) ∨
  ∃ v k, r = .ok v ∧ Window hash prev content k v ∧ (v.last = 0 ↔ ¬ EndsFull z frame content)

theorem verifyLoop_more {v' : Verifying z} (h : verifyTurn z hash none v = .more v') (n : ℕ) :
    verifyLoop z hash none (n + 1) v = verifyLoop z hash none n v' := by
  rw [verifyLoop, h]

theorem verifyLoop_ended {n : ℕ} (h : verifyTurn z hash none v = .ended v) (hn : 1 ≤ n) :
    verifyLoop z hash none n v = some (.ok v) := by
  obtain ⟨m, rfl⟩ := Nat.exists_eq_add_of_le' hn
  rw [verifyLoop, h]

theorem verifyTurn_end (hnil : v.input = []) (hquiet : v.outFull = false)
    (hunread : v.unread = []) : verifyTurn z hash none v = .ended v := by
  rw [verifyTurn, if_pos ⟨hnil, hquiet⟩, if_pos hunread]

/-- Behind the frame's end nothing is left to read. -/
theorem Feed.complete (h : Feed frame At i frame.length given v) :
    v.input = [] ∧ v.unread = [] := by
  have hinput := h.input
  rw [List.drop_length, List.prefix_nil] at hinput
  refine ⟨hinput, ?_⟩
  rw [h.unread]
  exact List.drop_of_length_le (Nat.le_add_right _ _)

/-- A call behind the frame's end: another frame is begun, and the answer is not 0. -/
theorem unpackInto_again (hash : HashOps) (hz : z.Unpacks frame content At)
    (h : Feed frame At i frame.length content.length v) {room : ℕ} (hroom : 0 < room)
    (hpart : v.pending.length < windowLen) (hwithin : ¬ passes unpackedMax v.unpacked) :
    ∃ v', unpackInto z hash unpackedMax room v = .more v' ∧ v'.last ≠ 0 ∧
      v'.input = [] ∧ v'.unread = [] ∧ v'.outFull = false ∧ v'.pending = v.pending ∧
      v'.state = v.state ∧ v'.folded = v.folded ∧ v'.unpacked = v.unpacked := by
  obtain ⟨hnil, hunread⟩ := h.complete
  obtain ⟨last, hlast, -, hout, hanswer⟩ := hz.again v.stream room h.at'
  have hsame : z.decompress v.stream v.input room = z.decompress v.stream [] room := by rw [hnil]
  rw [← hsame] at hout hanswer
  have hpending : (calledInto z room v last).pending = v.pending := by
    rw [calledInto, hout, List.append_nil]
  have hunpacked : (calledInto z room v last).unpacked = v.unpacked := by
    rw [calledInto, hout, List.length_nil, Nat.add_zero]
  refine ⟨calledInto z room v last, ?_, hlast, ?_, hunread, ?_, hpending, rfl, rfl, hunpacked⟩
  · unfold unpackInto
    rw [hanswer]
    dsimp only
    rw [hunpacked, if_neg hwithin, hpending, if_neg hpart.ne]
  · rw [calledInto, hnil, List.drop_nil]
  · rw [calledInto, hout, List.length_nil]
    exact decide_eq_false hroom.ne

/-- **Behind the frame's end** the check ends; a full window has it ask zstd once more, and
the answer to that is not 0. -/
theorem Reading.complete (hz : z.Unpacks frame content At)
    (h : Reading hash prev frame content At i frame.length content.length k v) :
    ∃ r, Done hash prev frame content r ∧ Returns (fun n => verifyLoop z hash none n v) r := by
  obtain ⟨hnil, hunread⟩ := h.feed.complete
  have hwin : Window hash prev content k v := by
    have := h.window
    rwa [List.take_length] at this
  have hends := h.ends rfl rfl
  cases hfull : v.outFull with
  | false =>
    rw [hfull] at hends
    refine ⟨.ok v, Or.inr ⟨v, k, rfl, hwin, ?_⟩, 1, fun n hn =>
      verifyLoop_ended (verifyTurn_end hnil hfull hunread) hn⟩
    rw [h.last]
    exact ⟨fun _ hfilled => by simpa using hends.2 hfilled, fun _ => ⟨rfl, rfl⟩⟩
  | true =>
    have hfilled := hends.1 hfull
    obtain ⟨v', hmore, hlast, hnil', hunread', hquiet, hpending, hstate, hfolded, -⟩ :=
      unpackInto_again hash hz h.feed (Nat.sub_pos_of_lt hwin.room) hwin.room
        (not_passes_none _)
    have hturn : verifyTurn z hash none v = .more v' := by
      rw [verifyTurn, if_neg (by simp [hfull]), unpackStep_eq, hmore]
    have hend : verifyTurn z hash none v' = .ended v' := verifyTurn_end hnil' hquiet hunread'
    refine ⟨.ok v', Or.inr ⟨v', k, rfl, ?_, ?_⟩, 2, fun n hn => ?_⟩
    · exact hwin.congr hpending hstate hfolded
    · exact ⟨fun h₀ => absurd h₀ hlast, fun hnot => absurd hfilled hnot⟩
    · obtain ⟨m, rfl⟩ := Nat.exists_eq_add_of_le' (Nat.le_of_succ_le hn)
      show verifyLoop z hash none (m + 1) v = _
      rw [verifyLoop_more hturn]
      exact verifyLoop_ended hend (by omega)

/-- **The check comes to an end.** -/
theorem verifyLoop_done (hz : z.Unpacks frame content At) {i fed given k : ℕ} {v : Verifying z}
    (h : Reading hash prev frame content At i fed given k v) :
    ∃ r, Done hash prev frame content r ∧ Returns (fun n => verifyLoop z hash none n v) r := by
  induction hm : toDo content given v using Nat.strongRecOn generalizing i fed given k v with
  | ind m ih =>
    by_cases hend : fed = frame.length ∧ given = content.length
    · obtain ⟨rfl, rfl⟩ := hend
      exact h.complete hz
    · rcases h.turn hz hend with ⟨hfail, hrefused⟩ | ⟨v', i', fed', given', k', hmore, hread, hless⟩
      · refine ⟨_, Or.inl ⟨rfl, hrefused⟩, 1, fun n hn => ?_⟩
        obtain ⟨n, rfl⟩ := Nat.exists_eq_add_of_le' hn
        show verifyLoop z hash none (n + 1) v = _
        rw [verifyLoop, hfail]
      · obtain ⟨r, hdone, n₀, hn₀⟩ := ih _ (hm ▸ hless) hread rfl
        refine ⟨r, hdone, n₀ + 1, fun n hn => ?_⟩
        obtain ⟨n, rfl⟩ := Nat.exists_eq_add_of_le' (Nat.le_of_add_left_le hn)
        show verifyLoop z hash none (n + 1) v = _
        rw [verifyLoop_more hmore]
        exact hn₀ n (by omega)

/-- **A packed file's check** returns, and answers OK for a sealed content that does not end
with the window. -/
theorem verifyPacked_returns (hz : z.Unpacks frame content At) (hne : content ≠ [])
    (sign : Option SignOps) : ∃ r, Returns (verifyPacked z hash sign none prev frame) r ∧
      ∀ x, r = .ok x ↔ ¬ EndsFull z frame content ∧
        ∃ body tr, Sealed hash prev content body tr ∧ checkSignature sign tr = .ok x := by
  obtain ⟨r, hdone, hreturns⟩ := verifyLoop_done hz
    (show Reading hash prev frame content At 0 0 0 0 _ from reading_begin hz hne)
  have hpacked : Returns (verifyPacked z hash sign none prev frame)
      (r.bind (verifyFinish hash sign prev)) := hreturns.map _
  refine ⟨_, hpacked, fun x => ?_⟩
  rcases hdone with ⟨rfl, hrefused⟩ | ⟨v, k, rfl, hwin, hlast⟩
  · refine ⟨fun h => (by cases h), ?_⟩
    rintro ⟨-, body, tr, hsealed, -⟩
    exact absurd hsealed (hrefused.not_sealed body tr)
  · show verifyFinish hash sign prev v = .ok x ↔ _
    by_cases hfull : EndsFull z frame content
    · have hbad : v.last ≠ 0 := fun h₀ => hlast.1 h₀ hfull
      rw [verifyFinish, if_pos hbad]
      exact ⟨fun h => (by cases h), fun h => absurd hfull h.1⟩
    · rw [verifyFinish_iff hwin (hlast.2 hfull)]
      exact ⟨fun h => ⟨hfull, h⟩, fun h => h.2⟩

/-! ## A segment packed and checked -/

variable {signer : Option Signer} {segment : Bytes} {h : Bytes32}

/-- What a segment unpacks to once packed: its bytes and a trailer, signed or not. -/
def packedLen (signer : Option Signer) (segment : Bytes) : ℕ :=
  segment.length + match signer with
    | none => 163
    | some _ => 163 + sigSuffixLen

/-- **When a packed segment checks:** it is empty or ends a line, and its last byte does not
fill the window in the last read of the packed file. -/
def PacksWell (z : Zstd) (signer : Option Signer) (segment file : Bytes) : Prop :=
  Closed segment ∧ ¬ (windowLen ≤ packedLen signer segment ∧
    packedLen signer segment % chunkLen = trailerMax ∧
    z.decoded file (lastRead file) < packedLen signer segment)

/-- What the packer wrote, where it answered OK. -/
theorem packSegment_ok (hpack : packSegment z hash signer prev segment = .ok (frame, h)) :
    ∃ sig, chainOver hash prev segment = some h ∧
      signLine signer (trailerBase prev h none) = some sig ∧
      z.compress (pieces chunkLen segment ++ [trailerLine prev h none sig]) = some frame := by
  -- Unfolded as a function: the kernel would evaluate the chain to compare an application.
  obtain ⟨pack, hdef⟩ : ∃ pack, @packSegment = pack := ⟨_, rfl⟩
  rw [hdef] at hpack
  delta packSegment at hdef
  subst hdef
  beta_reduce at hpack
  split at hpack
  next => cases hpack
  next h' hchain =>
    split at hpack
    next => cases hpack
    next sig hsig =>
      split at hpack
      next => cases hpack
      next file hfile =>
        obtain ⟨rfl, rfl⟩ := Prod.mk.inj (Except.ok.inj hpack)
        exact ⟨sig, hchain, hsig, hfile⟩

theorem length_trailerLine {sig : Option (Key × Sig)}
    (hsig : signLine signer (trailerBase prev h none) = some sig) :
    (segment ++ trailerLine prev h none sig).length = packedLen signer segment := by
  have hbase : (trailerBase prev h none).length = 162 := by
    have hhash : hashWord.length = 6 := by decide
    simp [trailerBase, fieldText, length_headWord1, hhash]
  have hnl : [newline].length = 1 := rfl
  rw [trailerLine, List.length_append, List.length_append, List.length_append, hbase, hnl]
  unfold packedLen
  cases signer with
  | none =>
    obtain rfl := Option.some.inj hsig
    rfl
  | some s =>
    obtain ⟨value, -, rfl⟩ := Option.map_eq_some_iff.1 hsig
    rw [length_sigSuffix]
    show segment.length + (162 + sigSuffixLen + 1) = segment.length + (163 + sigSuffixLen)
    omega

/-- What the check of a packed segment comes to, from any prev and with any signatures read. -/
theorem packed_returns (hz : z.Lawful)
    (hpack : packSegment z hash signer prev segment = .ok (frame, h)) :
    ∃ sig, signLine signer (trailerBase prev h none) = some sig ∧ ∀ sign prev',
      ∃ r, Returns (verifyPacked z hash sign none prev' frame) r ∧ ∀ x, r = .ok x ↔
        PacksWell z signer segment frame ∧ prev' = prev ∧
          checkSignature sign ⟨prev, h, none, sig, trailerBase prev h none⟩ = .ok x := by
  obtain ⟨sig, hchain, hsig, hfile⟩ := packSegment_ok hpack
  obtain ⟨At, hunpacks⟩ := hz _ _ hfile
  rw [List.flatten_append, flatten_pieces chunkLen_pos, List.flatten_singleton] at hunpacks
  have hne : segment ++ trailerLine prev h none sig ≠ [] := by
    rw [trailerLine]
    simp
  refine ⟨sig, hsig, fun sign prev' => ?_⟩
  obtain ⟨r, hreturns, hok⟩ :=
    @verifyPacked_returns z hash prev' frame _ At hunpacks hne sign
  refine ⟨r, hreturns, fun x => ?_⟩
  have hends : EndsFull z frame (segment ++ trailerLine prev h none sig) ↔
      windowLen ≤ packedLen signer segment ∧ packedLen signer segment % chunkLen = trailerMax ∧
        z.decoded frame (lastRead frame) < packedLen signer segment := by
    rw [EndsFull, length_trailerLine hsig]
  rw [hok, hends, PacksWell]
  constructor
  · rintro ⟨hfull, body, tr, hsealed, hcheck⟩
    obtain ⟨hclosed, rfl, rfl⟩ := (sealed_line_iff sig none hchain prev' tr).1 ⟨body, hsealed⟩
    exact ⟨⟨hclosed, hfull⟩, rfl, hcheck⟩
  · rintro ⟨⟨hclosed, hfull⟩, rfl, hcheck⟩
    obtain ⟨body, hsealed⟩ := (sealed_line_iff sig none hchain prev' _).2 ⟨hclosed, rfl, rfl⟩
    exact ⟨hfull, body, _, hsealed, hcheck⟩

/-- **Packing and checking agree** for a segment that is empty or ends a line and does not
end with the checker's window, and for no other.  The check always returns, and from any
other prev it never answers OK. -/
theorem pack_verify_agree (hz : z.Lawful)
    (hpack : packSegment z hash signer prev segment = .ok (frame, h)) :
    (∀ prev', ∃ r, Returns (verifyPacked z hash none none prev' frame) r) ∧
    (Returns (verifyPacked z hash none none prev frame) (.ok ⟨h, none⟩) ↔
      PacksWell z signer segment frame) ∧
    ∀ prev' x, Returns (verifyPacked z hash none none prev' frame) (.ok x) → prev' = prev := by
  obtain ⟨sig, -, hall⟩ := packed_returns hz hpack
  refine ⟨fun prev' => ?_, ?_, fun prev' x hx => ?_⟩
  · obtain ⟨r, hr, -⟩ := hall none prev'
    exact ⟨r, hr⟩
  · obtain ⟨r, hr, hok⟩ := hall none prev
    constructor
    · intro hverified
      exact ((hok _).1 (hr.unique hverified)).1
    · intro hwell
      rwa [(hok ⟨h, none⟩).2 ⟨hwell, rfl, rfl⟩] at hr
  · obtain ⟨r, hr, hok⟩ := hall none prev'
    exact ((hok x).1 (hr.unique hx)).2.1

/-- The runs on fixed files: unsigned, and the chain has a value. -/
theorem packSegment_tagged (hchain : chainOver hash prev segment = some h) :
    packSegment taggedZstd hash none prev segment =
      .ok (taggedFrame (pieces chunkLen segment ++ [trailerLine prev h none none]).flatten, h) := by
  obtain ⟨pack, hdef⟩ : ∃ pack, @packSegment = pack := ⟨_, rfl⟩
  rw [hdef]
  delta packSegment at hdef
  subst hdef
  beta_reduce
  rw [hchain]
  rfl

/-- A line packed and checked. -/
theorem pack_verify_agree_line : ∃ frame h,
    packSegment taggedZstd tailHash none 0 (ascii "a\n") = .ok (frame, h) ∧
    Returns (verifyPacked taggedZstd tailHash none none 0 frame) (.ok ⟨h, none⟩) := by
  have hpack := packSegment_tagged (@chainOver_of_le tailHash 0 (ascii "a\n") (by decide)
    (by decide))
  refine ⟨_, _, hpack, ?_⟩
  refine (pack_verify_agree taggedZstd_lawful hpack).2.1.2 ⟨Or.inr (by decide), ?_⟩
  exact fun hfull => absurd hfull.1 (by decide)

/-- **A segment cut off in a line is packed and never checks:** its last line and the trailer
are one line. -/
theorem pack_cut_line : ∃ frame h,
    packSegment taggedZstd tailHash none 0 (ascii "a") = .ok (frame, h) ∧
    ∀ prev x, ¬ Returns (verifyPacked taggedZstd tailHash none none prev frame) (.ok x) := by
  have hpack := packSegment_tagged (@chainOver_of_le tailHash 0 (ascii "a") (by decide)
    (by decide))
  refine ⟨_, _, hpack, fun prev x hx => ?_⟩
  obtain ⟨sig, -, hall⟩ := packed_returns taggedZstd_lawful hpack
  obtain ⟨r, hr, hok⟩ := hall none prev
  rcases ((hok x).1 (hr.unique hx)).1.1 with hnil | hlast
  · exact absurd hnil (by decide)
  · exact absurd hlast (by decide)

end Log
end Fuzznet
