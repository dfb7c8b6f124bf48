/-
# The deficit, a window at a time

`chain/manifest.c`, `fzn_manifest_deficit_from`: the pairs a host lacks of one issuer, as
many as the caller has room for, from a cursor on.

The table is walked once, in its own order.  A pair at position `pos` of the issuer's run
stands `(pos - from) mod total` behind the cursor and is written straight to that place,
so the window comes out in cursor order.  `deficitFrom_out` says what the walk leaves: a
cut of the run rotated by the cursor.  A caller that passes `next` back reads the whole
run within `⌈total / out_cap⌉` calls (`deficit_rotation`).

The table is caller-owned memory, so its rows and twice its rows are `size_t`s and no sum
here wraps.
-/

import Fuzznet.Chain.Manifest
import Fuzznet.Lib.Round
import Mathlib.Data.List.Rotate

namespace Fuzznet
namespace Chain

open Wire

/-- `fzn_manifest_pair_t`. -/
structure ManifestPair where
  capability : CapId
  grantee : Key
  deriving DecidableEq, Repr

/-- The pair of a row of the deficit table. -/
def Triple.pair (d : Triple) : ManifestPair := ⟨d.capability, d.grantee⟩

/-- What `fzn_manifest_deficit_from` leaves: its answer, `*dropped`, `*next` and `out`. -/
structure DeficitPage where
  written : ℕ
  dropped : ℕ
  next : ℕ
  out : List ManifestPair
  deriving DecidableEq, Repr

/-- Where the pair at `pos` of a run of `total` stands behind the cursor `start`. -/
def behindCursor (total start pos : ℕ) : ℕ := (pos + total - start) % total

/-- The second loop of `fzn_manifest_deficit_from`, over the rows left and behind `pos`
rows of the issuer: the output and how many pairs were written to it. -/
def deficitLoop (issuer : Key) (total start : ℕ) :
    List Triple → ℕ → List ManifestPair → ℕ → List ManifestPair × ℕ
  | [], _, out, written => (out, written)
  | d :: ds, pos, out, written =>
    if d.issuer ≠ issuer then deficitLoop issuer total start ds pos out written
    else if out.length ≤ behindCursor total start pos then
      deficitLoop issuer total start ds (pos + 1) out written
    else
      deficitLoop issuer total start ds (pos + 1)
        (out.set (behindCursor total start pos) d.pair) (written + 1)

/-- `fzn_manifest_deficit_from`; `out_cap` is the length of `out`. -/
def deficitFrom (m : ManifestState) (issuer : Key) (start : ℕ) (out : List ManifestPair) :
    DeficitPage :=
  if stateSound m = false then ⟨0, 0, 0, out⟩
  else
    let total := m.deficit.countP fun d => d.issuer = issuer
    if total = 0 then ⟨0, 0, 0, out⟩
    else
      let r := deficitLoop issuer total (start % total) m.deficit 0 out 0
      ⟨r.2, total - r.2, (start % total + r.2) % total, r.1⟩

/-- The pairs outstanding of an issuer, in the order of the table. -/
def outstanding (m : ManifestState) (issuer : Key) : List ManifestPair :=
  (m.deficit.filter fun d => d.issuer = issuer).map Triple.pair

/-! ## One page -/

/-- A place behind the cursor is the place of one position. -/
theorem behindCursor_eq_iff {total start pos i : ℕ} (hstart : start < total) (hpos : pos < total)
    (hi : i < total) : behindCursor total start pos = i ↔ (i + start) % total = pos := by
  rw [behindCursor, Lib.mod_of_lt_two_mul (by omega), Lib.mod_of_lt_two_mul (by omega)]
  split_ifs <;> omega

theorem behindCursor_lt {total start pos : ℕ} (h : 0 < total) :
    behindCursor total start pos < total := Nat.mod_lt _ h

section Loop

variable {issuer : Key} {total start : ℕ}

@[simp] theorem length_deficitLoop (ds : List Triple) (pos : ℕ) (out : List ManifestPair)
    (written : ℕ) : (deficitLoop issuer total start ds pos out written).1.length = out.length := by
  induction ds generalizing pos out written with
  | nil => rfl
  | cons d ds ih =>
    rw [deficitLoop]
    split_ifs
    · exact ih pos out written
    · exact ih (pos + 1) out written
    · rw [ih, List.length_set]

/-- **What the loop writes**: at each place of the window the pair whose position it is,
where the rows left hold it. -/
theorem deficitLoop_out (hstart : start < total) {ds : List Triple} {pos : ℕ}
    (hpos : pos + ds.countP (fun d => d.issuer = issuer) ≤ total) (out : List ManifestPair)
    (written : ℕ) {i : ℕ} (hi : i < out.length) :
    (deficitLoop issuer total start ds pos out written).1[i]? =
      if i < total ∧ pos ≤ (i + start) % total ∧
          (i + start) % total < pos + ds.countP (fun d => d.issuer = issuer) then
        ((ds.filter fun d => d.issuer = issuer).map Triple.pair)[(i + start) % total - pos]?
      else out[i]? := by
  induction ds generalizing pos out written with
  | nil =>
    rw [List.countP_nil, if_neg (by omega)]
    rfl
  | cons d ds ih =>
    rw [deficitLoop]
    by_cases hd : d.issuer = issuer
    · rw [List.countP_cons_of_pos (by simpa using hd)] at hpos ⊢
      rw [if_neg (not_not.2 hd), List.filter_cons_of_pos (by simpa using hd), List.map_cons]
      have hplace := @behindCursor_eq_iff total start pos i hstart (by omega)
      have hrest : ∀ rest : List ManifestPair, pos ≠ (i + start) % total →
          pos ≤ (i + start) % total →
          (d.pair :: rest)[(i + start) % total - pos]? =
            rest[(i + start) % total - (pos + 1)]? := by
        intro rest hne hle
        rw [List.getElem?_cons, if_neg (by omega)]
        congr 1
      split_ifs with hroom hin hin
      · have hne : pos ≠ (i + start) % total := fun h => by
          have := (hplace hin.1).2 h.symm
          omega
        rw [ih (by omega) out written hi, if_pos (by omega), hrest _ hne (by omega)]
      · rw [ih (by omega) out written hi, if_neg (by omega)]
      · rw [ih (by omega) _ _ (by rwa [List.length_set])]
        by_cases heq : (i + start) % total = pos
        · rw [if_neg (by omega), (hplace hin.1).2 heq, List.getElem?_set_self (by omega), heq,
            Nat.sub_self]
          rfl
        · rw [if_pos (by omega), hrest _ (Ne.symm heq) (by omega)]
      · rw [ih (by omega) _ _ (by rwa [List.length_set]), if_neg (by omega)]
        refine List.getElem?_set_ne fun h => hin ?_
        have hlt : i < total := h ▸ behindCursor_lt (by omega)
        have heq := (hplace hlt).1 h
        omega
    · rw [List.countP_cons_of_neg (by simpa using hd)] at hpos ⊢
      rw [if_pos hd, List.filter_cons_of_neg (by simpa using hd)]
      exact ih hpos out written hi

/-- The loop counts the positions it has room for. -/
theorem deficitLoop_written (ds : List Triple) (pos : ℕ) (out : List ManifestPair)
    (written : ℕ) :
    (deficitLoop issuer total start ds pos out written).2 = written +
      (List.range' pos (ds.countP fun d => d.issuer = issuer)).countP
        fun p => behindCursor total start p < out.length := by
  induction ds generalizing pos out written with
  | nil => rfl
  | cons d ds ih =>
    rw [deficitLoop]
    by_cases hd : d.issuer = issuer
    · rw [List.countP_cons_of_pos (by simpa using hd), if_neg (not_not.2 hd), List.range'_succ]
      split_ifs with hroom
      · rw [ih, List.countP_cons_of_neg (by simpa using hroom)]
      · rw [ih, List.length_set, List.countP_cons_of_pos (by simpa using hroom)]
        omega
    · rw [List.countP_cons_of_neg (by simpa using hd), if_pos hd]
      exact ih pos out written

end Loop

/-- The places behind a cursor are all places. -/
theorem behindCursor_perm {total start : ℕ} (hstart : start < total) :
    ((List.range total).map (behindCursor total start)).Perm (List.range total) := by
  have hrotate : (List.range total).map (behindCursor total start) =
      (List.range total).rotate (total - start) := by
    refine List.ext_getElem (by simp) fun i hi hi' => ?_
    rw [List.getElem_map, List.getElem_rotate, List.getElem_range, List.getElem_range,
      List.length_range, behindCursor]
    congr 1
    omega
  rw [hrotate]
  exact List.rotate_perm _ _

theorem countP_lt_range (n cap : ℕ) : ((List.range n).countP fun p => p < cap) = min n cap := by
  induction n with
  | zero => simp
  | succ n ih =>
    rw [List.range_succ, List.countP_append, ih, List.countP_singleton]
    split_ifs with h <;> simp only [decide_eq_true_eq] at h <;> omega

/-- As many places are in the window as fit it. -/
theorem countP_behindCursor {total start cap : ℕ} (hstart : start < total) :
    ((List.range total).countP fun p => behindCursor total start p < cap) = min total cap := by
  have hperm := (behindCursor_perm hstart).countP_eq fun p => decide (p < cap)
  rw [List.countP_map, countP_lt_range] at hperm
  exact hperm

theorem length_outstanding (m : ManifestState) (issuer : Key) :
    (outstanding m issuer).length = m.deficit.countP fun d => d.issuer = issuer := by
  rw [outstanding, List.length_map, List.countP_eq_length_filter]

section Page

variable {m : ManifestState} {issuer : Key}

section

variable (hsound : stateSound m = true) (hn : 0 < (outstanding m issuer).length) (start : ℕ)
  (out : List ManifestPair)
include hsound hn

theorem deficitFrom_eq :
    deficitFrom m issuer start out =
      let n := (outstanding m issuer).length
      let r := deficitLoop issuer n (start % n) m.deficit 0 out 0
      ⟨r.2, n - r.2, (start % n + r.2) % n, r.1⟩ := by
  rw [length_outstanding] at hn ⊢
  rw [deficitFrom, if_neg (by simp [hsound])]
  exact if_neg (by omega)

/-- **A page holds as many pairs as there are and as fit**, and says how many it left. -/
theorem deficitFrom_written :
    (deficitFrom m issuer start out).written = min (outstanding m issuer).length out.length ∧
      (deficitFrom m issuer start out).dropped =
        (outstanding m issuer).length - (deficitFrom m issuer start out).written ∧
      (deficitFrom m issuer start out).next =
        (start + (deficitFrom m issuer start out).written) % (outstanding m issuer).length := by
  rw [deficitFrom_eq hsound hn]
  refine ⟨?_, rfl, Nat.mod_add_mod _ _ _⟩
  dsimp only
  rw [deficitLoop_written, ← length_outstanding, ← List.range_eq_range', Nat.zero_add,
    countP_behindCursor (Nat.mod_lt _ hn)]

/-- **A page is a cut of the run rotated by the cursor**, and the rest of the output is
left as it was. -/
theorem deficitFrom_out (i : ℕ) :
    (deficitFrom m issuer start out).out[i]? =
      if i < (deficitFrom m issuer start out).written then
        (outstanding m issuer)[(start + i) % (outstanding m issuer).length]?
      else out[i]? := by
  rw [(deficitFrom_written hsound hn start out).1, deficitFrom_eq hsound hn]
  dsimp only
  rcases Nat.lt_or_ge i out.length with hi | hi
  · rw [deficitLoop_out (Nat.mod_lt _ hn) (by rw [length_outstanding]; omega) out 0 hi,
      ← length_outstanding, Nat.add_mod_mod, Nat.sub_zero, Nat.add_comm i start]
    have hlt := Nat.mod_lt (start + i) hn
    split_ifs
    · rfl
    · omega
    · omega
    · rfl
  · rw [List.getElem?_eq_none (by rw [length_deficitLoop]; exact hi), if_neg (by omega),
      List.getElem?_eq_none hi]

end

end Page

/-! ## Page after page -/

/-- The cursor behind `k` calls over an unchanged state, each with room for `outCap`. -/
def cursorAfter (m : ManifestState) (issuer : Key) (outs : ℕ → List ManifestPair) (start : ℕ) :
    ℕ → ℕ
  | 0 => start
  | k + 1 => (deficitFrom m issuer (cursorAfter m issuer outs start k) (outs k)).next

section Pages

variable {m : ManifestState} {issuer : Key} {outs : ℕ → List ManifestPair} {outCap : ℕ}

/-- The cursor is as far on as the pages behind it are long. -/
theorem cursorAfter_mod (hsound : stateSound m = true) (hn : 0 < (outstanding m issuer).length)
    (houts : ∀ k, (outs k).length = outCap) (start k : ℕ) :
    cursorAfter m issuer outs start k % (outstanding m issuer).length =
      (start + k * min (outstanding m issuer).length outCap) % (outstanding m issuer).length := by
  induction k with
  | zero => rw [cursorAfter, Nat.zero_mul, Nat.add_zero]
  | succ k ih =>
    obtain ⟨hwritten, -, hnext⟩ :=
      deficitFrom_written hsound hn (cursorAfter m issuer outs start k) (outs k)
    rw [cursorAfter, hnext, hwritten, houts, Nat.mod_mod, Nat.add_mod, ih, ← Nat.add_mod,
      Nat.succ_mul, Nat.add_assoc]

/-- A position of the run is on one of the first pages. -/
theorem exists_page {n cap start j : ℕ} (hcap : 0 < cap) (hj : j < n) :
    ∃ k < (n + cap - 1) / cap, ∃ i < min n cap, (start + k * min n cap + i) % n = j := by
  have hn : 0 < n := by omega
  have hstart := Nat.mod_lt start hn
  -- `t` is how far behind the cursor the position is.
  obtain ⟨t, ht, hat⟩ : ∃ t < n, (start + t) % n = j := by
    refine ⟨behindCursor n (start % n) j, behindCursor_lt hn, ?_⟩
    have hplace := (behindCursor_eq_iff hstart hj (behindCursor_lt hn)).1 rfl
    rwa [Nat.add_mod_mod, Nat.add_comm] at hplace
  have hpages : 1 ≤ (n + cap - 1) / cap := (Nat.le_div_iff_mul_le hcap).2 (by omega)
  rcases Nat.le_total n cap with hle | hle
  · refine ⟨0, by omega, t, by omega, ?_⟩
    rwa [Nat.zero_mul, Nat.add_zero]
  · rw [Nat.min_eq_right hle]
    refine ⟨t / cap, ?_, t % cap, Nat.mod_lt t hcap, ?_⟩
    · refine (Nat.div_lt_iff_lt_mul hcap).2 ?_
      have hdiv := Nat.div_add_mod (n + cap - 1) cap
      have hrem := Nat.mod_lt (n + cap - 1) hcap
      rw [Nat.mul_comm] at hdiv
      omega
    · rw [Nat.add_assoc, Nat.div_add_mod']
      exact hat

/-- **Deficit rotation misses nobody.**  For a sound state, an issuer with pairs
outstanding and room for one, `fzn_manifest_deficit_from` writes as many pairs as there
are and as fit, without gaps: at place `i` the pair at position `from + i` modulo their
number, in the order of the table.  The rest are counted as dropped, and from `next` on
every pair outstanding is reported within `⌈n / out_cap⌉` calls. -/
theorem deficit_rotation (hsound : stateSound m = true) (hn : 0 < (outstanding m issuer).length)
    (hcap : 0 < outCap) (start : ℕ) :
    (∀ out : List ManifestPair, out.length = outCap →
      (deficitFrom m issuer start out).written = min (outstanding m issuer).length outCap ∧
      (deficitFrom m issuer start out).dropped =
        (outstanding m issuer).length - (deficitFrom m issuer start out).written ∧
      ∀ i, (deficitFrom m issuer start out).out[i]? =
        if i < (deficitFrom m issuer start out).written then
          (outstanding m issuer)[(start + i) % (outstanding m issuer).length]?
        else out[i]?) ∧
    ∀ outs : ℕ → List ManifestPair, (∀ k, (outs k).length = outCap) →
      ∀ x ∈ outstanding m issuer,
        ∃ k < ((outstanding m issuer).length + outCap - 1) / outCap,
          x ∈ (deficitFrom m issuer (cursorAfter m issuer outs start k) (outs k)).out.take
            (deficitFrom m issuer (cursorAfter m issuer outs start k) (outs k)).written := by
  refine ⟨fun out hlen => ?_, fun outs houts x hx => ?_⟩
  · obtain ⟨hwritten, hdropped, -⟩ := deficitFrom_written hsound hn start out
    exact ⟨hlen ▸ hwritten, hdropped, deficitFrom_out hsound hn start out⟩
  · obtain ⟨j, hj, rfl⟩ := List.mem_iff_getElem.1 hx
    obtain ⟨k, hk, i, hi, hat⟩ := @exists_page _ outCap start j hcap hj
    have hpage := deficitFrom_out hsound hn (cursorAfter m issuer outs start k) (outs k) i
    have hwritten := (deficitFrom_written hsound hn (cursorAfter m issuer outs start k) (outs k)).1
    rw [houts] at hwritten
    rw [if_pos (by omega), Nat.add_mod, cursorAfter_mod hsound hn houts, ← Nat.add_mod, hat,
      List.getElem?_eq_getElem hj] at hpage
    refine ⟨k, hk, List.mem_of_getElem? (i := i) ?_⟩
    rw [List.getElem?_take, if_pos (by omega), hpage]

end Pages

/-- Three pairs of one issuer among those of another. -/
def threeOutstanding : ManifestState :=
  ⟨[], 1, [⟨1, ⟨7⟩, 10⟩, ⟨2, ⟨7⟩, 11⟩, ⟨1, ⟨7⟩, 12⟩, ⟨1, ⟨7⟩, 13⟩], 4⟩

/-- Two pairs at a time from the last one on. -/
theorem deficit_rotation_three :
    (deficitFrom threeOutstanding 1 2 (List.replicate 2 ⟨⟨0⟩, 0⟩)).out =
        [⟨⟨7⟩, 13⟩, ⟨⟨7⟩, 10⟩] ∧
      ∃ k < 2, (⟨⟨7⟩, 12⟩ : ManifestPair) ∈
        (deficitFrom threeOutstanding 1 (cursorAfter threeOutstanding 1
          (fun _ => List.replicate 2 ⟨⟨0⟩, 0⟩) 2 k) (List.replicate 2 ⟨⟨0⟩, 0⟩)).out.take
          (deficitFrom threeOutstanding 1 (cursorAfter threeOutstanding 1
            (fun _ => List.replicate 2 ⟨⟨0⟩, 0⟩) 2 k) (List.replicate 2 ⟨⟨0⟩, 0⟩)).written := by
  have hrotation := @deficit_rotation threeOutstanding 1 2 (by decide) (by decide) (by decide) 2
  exact ⟨by decide, hrotation.2 (fun _ => List.replicate 2 ⟨⟨0⟩, 0⟩) (fun _ => rfl) _ (by decide)⟩

end Chain
end Fuzznet
