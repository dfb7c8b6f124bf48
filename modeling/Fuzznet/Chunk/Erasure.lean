/-
# Erasure coding

`chunk/erasure.c`.  A buffer is cut into `k` data pieces, the last padded with zeros,
and `m` parity pieces are sums of them, with the coefficients of a Cauchy matrix
(`generator`).  `fzn_erasure_decode` takes the first `k` pieces it holds, inverts the
matrix of their rows by Gauss-Jordan elimination and reads the data pieces off the
inverse.

The elimination of the source is the one of `Lib.GaussJordan` on the rows of the
matrix with the inverse beside it (`elimColumn_rows`), over the field of `Chunk.Galois`;
the rows of any `k` pieces are independent by `Lib.Cauchy` (`rows_independent`).  So a
pivot is always found, whatever pieces are held, and the inverse times the bytes held
is the bytes of the data.

A pointer to a buffer is the bytes it points at, and the array of pieces is a function
that is `none` where the entry is null; the test for a null array is not modelled.
The sizes are natural numbers: the pieces of one buffer are in memory, so their lengths
do not wrap.  The sum of `k` and `m`, which the caller chooses, is reduced as the code
reduces it.
-/

import Fuzznet.Chunk.Galois
import Fuzznet.Lib.Buffer
import Fuzznet.Lib.Cauchy
import Fuzznet.Lib.GaussJordan
import Fuzznet.Lib.Pieces

namespace Fuzznet
namespace Chunk

open Wire Lib

/-- `fzn_erasure_err_t`, without `FZN_ERASURE_OK`. -/
inductive ErasureErr
  | malformed
  | tooFew
  deriving DecidableEq, Repr

/-- `FZN_ERASURE_PIECES_MAX`. -/
def erasurePiecesMax : ℕ := 32

/-- Row `r` of the generator matrix, column `c`. -/
def generator (k r c : ℕ) : UInt8 :=
  if r < k then (if r = c then 1 else 0) else gfInv (UInt8.ofNat (r ^^^ c))

/-- `fzn_erasure_piece_len`. -/
def erasurePieceLen (len k : ℕ) : ℕ :=
  if k = 0 ∨ len = 0 then 0 else len / k + if len % k ≠ 0 then 1 else 0

/-- `shape_ok`.  `k + m` is an `unsigned`. -/
def shapeOk (k m len : ℕ) : Bool :=
  decide (k ≠ 0 ∧ m ≠ 0 ∧ (k + m) % 2 ^ 32 ≤ erasurePiecesMax ∧ len ≠ 0)

/-! ### Encoding -/

/-- The data pieces end to end: the buffer, over zeros. -/
def dataPieces (k : ℕ) (data : Bytes) : Bytes :=
  store (List.replicate (k * erasurePieceLen data.length k) 0) 0 data

/-- One turn of the loop over the data pieces: `coef` times a piece, added to the parity. -/
def addScaled (coef : UInt8) (piece parity : Bytes) : Bytes :=
  List.zipWith (fun v b => v ^^^ gfMul coef b) parity piece

/-- Parity piece `j` over the data pieces. -/
def parityPiece (k plen : ℕ) (pieces : Bytes) (j : ℕ) : Bytes :=
  (List.finRange k).foldl
    (fun parity (c : Fin k) => addScaled (generator k (k + j) c) (load pieces (c * plen) plen) parity)
    (List.replicate plen 0)

/-- The pieces end to end. -/
def codedPieces (k m : ℕ) (data : Bytes) : Bytes :=
  dataPieces k data ++
    (List.range m).flatMap
      (parityPiece k (erasurePieceLen data.length k) (dataPieces k data))

/-- `fzn_erasure_encode`. -/
def erasureEncode (k m : ℕ) (data : Bytes) : Except ErasureErr Bytes :=
  if shapeOk k m data.length = false then .error .malformed else .ok (codedPieces k m data)

/-! ### Elimination -/

/-- A `k` by `k` matrix of bytes. -/
abbrev Grid (k : ℕ) := Vector (Vector UInt8 k) k

section Grid

variable {k : ℕ}

/-- The matrix with these entries. -/
def Grid.of (f : Fin k → Fin k → UInt8) : Grid k := Vector.ofFn fun r => Vector.ofFn (f r)

/-- The entry in row `r`, column `c`. -/
def Grid.at (g : Grid k) (r c : Fin k) : UInt8 := g[r][c]

@[simp] theorem Grid.at_of (f : Fin k → Fin k → UInt8) (r c : Fin k) :
    (Grid.of f).at r c = f r c := by
  simp [Grid.of, Grid.at]

/-- `a` and `inv` of `fzn_erasure_decode`. -/
structure Elim (k : ℕ) where
  a : Grid k
  inv : Grid k

/-- The rows held, and the identity beside them. -/
def elimStart (k : ℕ) (rows : List ℕ) : Elim k where
  a := Grid.of fun r c => generator k (rows.getD r 0) c
  inv := Grid.of fun r c => if r = c then 1 else 0

/-- The first row from `c` on that has column `c`. -/
def findPivot (e : Elim k) (c : Fin k) : Option (Fin k) :=
  (List.finRange k).find? fun p => decide (c ≤ p ∧ e.a.at p c ≠ 0)

def swapGrid (c p : Fin k) (g : Grid k) : Grid k :=
  Grid.of fun r i => if r = c then g.at p i else if r = p then g.at c i else g.at r i

def scaleGrid (c : Fin k) (scale : UInt8) (g : Grid k) : Grid k :=
  Grid.of fun r i => if r = c then gfMul (g.at c i) scale else g.at r i

/-- `f` is column `c` as the loop over the rows finds it. -/
def clearGrid (c : Fin k) (f : Fin k → UInt8) (g : Grid k) : Grid k :=
  Grid.of fun r i => if r = c ∨ f r = 0 then g.at r i else g.at r i ^^^ gfMul (f r) (g.at c i)

/-- The pivot row to its place. -/
def elimSwap (c p : Fin k) (e : Elim k) : Elim k :=
  if p ≠ c then ⟨swapGrid c p e.a, swapGrid c p e.inv⟩ else e

/-- A one at the pivot. -/
def elimScale (c : Fin k) (e : Elim k) : Elim k :=
  ⟨scaleGrid c (gfInv (e.a.at c c)) e.a, scaleGrid c (gfInv (e.a.at c c)) e.inv⟩

/-- Zeros in the rest of the column. -/
def elimClear (c : Fin k) (e : Elim k) : Elim k :=
  ⟨clearGrid c (fun r => e.a.at r c) e.a, clearGrid c (fun r => e.a.at r c) e.inv⟩

/-- One turn of the loop over the columns; `none` is the return with no pivot. -/
def elimColumn (e : Elim k) (c : Fin k) : Option (Elim k) :=
  (findPivot e c).map fun p => elimClear c (elimScale c (elimSwap c p e))

/-- The loop over the columns. -/
def eliminate (k : ℕ) (rows : List ℕ) : Option (Elim k) :=
  (List.finRange k).foldlM elimColumn (elimStart k rows)

end Grid

/-! ### Decoding -/

/-- The first `k` pieces held.  `k + m` is an `unsigned`. -/
def heldRows (k m : ℕ) (pieces : ℕ → Option Bytes) : List ℕ :=
  ((List.range ((k + m) % 2 ^ 32)).filter fun i => (pieces i).isSome).take k

/-- Byte `b` of the piece in row `i` of the elimination. -/
def heldByte (pieces : ℕ → Option Bytes) (rows : List ℕ) (i b : ℕ) : UInt8 :=
  ((pieces (rows.getD i 0)).getD []).getD b 0

/-- Byte `b` of data piece `r`: row `r` of the inverse over the pieces held. -/
def rebuiltByte {k : ℕ} (inv : Grid k) (held : ℕ → ℕ → UInt8) (r : Fin k) (b : ℕ) : UInt8 :=
  (List.finRange k).foldl (fun v i => v ^^^ gfMul (inv.at r i) (held i b)) 0

/-- One turn of the last loop: data piece `r`, as far as `len` reaches. -/
def writeRow {k : ℕ} (len plen : ℕ) (inv : Grid k) (held : ℕ → ℕ → UInt8) (out : Bytes)
    (r : Fin k) : Bytes :=
  if out.length < len then
    out ++ (List.range (min (len - out.length) plen)).map (rebuiltByte inv held r)
  else out

/-- `fzn_erasure_decode`. -/
def erasureDecode (k m : ℕ) (pieces : ℕ → Option Bytes) (len : ℕ) : Except ErasureErr Bytes :=
  if shapeOk k m len = false then .error .malformed
  else if (heldRows k m pieces).length < k then .error .tooFew
  else
    match eliminate k (heldRows k m pieces) with
    | none => .error .malformed
    | some e =>
      .ok ((List.finRange k).foldl
        (writeRow len (erasurePieceLen len k) e.inv (heldByte pieces (heldRows k m pieces))) [])

/-! ### The elimination is the one on rows -/

section Rows

variable {k : ℕ}

/-- Row `r` of the matrix, with row `r` of the inverse beside it. -/
def Elim.rows (e : Elim k) (r : Fin k) : (Fin k → Gf) × (Fin k → Gf) :=
  (fun c => ⟨e.a.at r c⟩, fun c => ⟨e.inv.at r c⟩)

/-- The part of a row that is eliminated. -/
def lead (k : ℕ) : ((Fin k → Gf) × (Fin k → Gf)) →ₗ[Gf] (Fin k → Gf) := LinearMap.fst Gf _ _

@[simp] theorem lead_rows (e : Elim k) (r c : Fin k) : lead k (e.rows r) c = ⟨e.a.at r c⟩ := rfl

theorem rows_elimSwap (c p : Fin k) (e : Elim k) :
    (elimSwap c p e).rows = swapRows c p e.rows := by
  by_cases hpc : p = c
  · rw [elimSwap, if_neg (not_not.2 hpc), hpc]
    funext r
    rw [swapRows, Equiv.swap_self, Equiv.refl_apply]
  · rw [elimSwap, if_pos hpc]
    funext r
    rw [swapRows, Equiv.swap_apply_def]
    by_cases hrc : r = c
    · simp [Elim.rows, swapGrid, hrc]
    · by_cases hrp : r = p
      · simp [Elim.rows, swapGrid, hrp, hpc]
      · simp [Elim.rows, swapGrid, hrc, hrp]

theorem rows_elimScale {c : Fin k} {e : Elim k} (hc : e.a.at c c ≠ 0) :
    (elimScale c e).rows = scaleRow c (lead k (e.rows c) c)⁻¹ e.rows := by
  have hinv : (lead k (e.rows c) c)⁻¹ = ⟨gfInv (e.a.at c c)⟩ := by
    rw [lead_rows, Gf.inv_mk hc]
  funext r
  rw [hinv, scaleRow]
  by_cases hrc : r = c
  · subst hrc
    rw [if_pos rfl]
    refine Prod.ext (funext fun i => Gf.ext ?_) (funext fun i => Gf.ext ?_)
    · simp [Elim.rows, elimScale, scaleGrid, gfMul_comm]
    · simp [Elim.rows, elimScale, scaleGrid, gfMul_comm]
  · simp [Elim.rows, elimScale, scaleGrid, hrc]

theorem rows_elimClear (c : Fin k) (e : Elim k) :
    (elimClear c e).rows = clearRows c (fun r => lead k (e.rows r) c) e.rows := by
  funext r
  rw [clearRows]
  by_cases hrc : r = c
  · simp [Elim.rows, elimClear, clearGrid, hrc]
  · rw [if_neg hrc, lead_rows]
    by_cases hf : e.a.at r c = 0
    · have hzero : (⟨e.a.at r c⟩ : Gf) = 0 := Gf.ext hf
      rw [hzero, zero_smul, sub_zero]
      simp [Elim.rows, elimClear, clearGrid, hf]
    · refine Prod.ext (funext fun i => Gf.ext ?_) (funext fun i => Gf.ext ?_)
      · simp [Elim.rows, elimClear, clearGrid, hrc, hf]
      · simp [Elim.rows, elimClear, clearGrid, hrc, hf]

theorem findPivot_spec {e : Elim k} {c p : Fin k} (hp : findPivot e c = some p) :
    c ≤ p ∧ e.a.at p c ≠ 0 := by
  rw [findPivot] at hp
  have hfound := List.find?_some hp
  exact of_decide_eq_true hfound

/-- **A column with a pivot is reduced.** -/
theorem elimColumn_rows {e : Elim k} {c p : Fin k} (hp : findPivot e c = some p) :
    ∃ e', elimColumn e c = some e' ∧ e'.rows = reduceRows (lead k) c p e.rows := by
  have hne := (findPivot_spec hp).2
  have hpivot : swapRows c p e.rows c = e.rows p := by rw [swapRows, Equiv.swap_apply_left]
  have hat : (elimSwap c p e).a.at c c = e.a.at p c := by
    have hrow := congrFun (rows_elimSwap c p e) c
    rw [hpivot] at hrow
    exact congrArg Gf.byte (congrFun (congrArg Prod.fst hrow) c)
  refine ⟨elimClear c (elimScale c (elimSwap c p e)), by rw [elimColumn, hp, Option.map_some], ?_⟩
  rw [rows_elimClear, rows_elimScale (by rwa [hat]), rows_elimSwap, hpivot, reduceRows]

/-! ### The rows held are independent -/

/-- Pieces to keep: as many rows as columns, no two the same, all of them pieces. -/
structure Selected (k m : ℕ) (rows : List ℕ) : Prop where
  length : rows.length = k
  nodup : rows.Nodup
  lt : ∀ i ∈ rows, i < k + m

variable {m : ℕ} {rows : List ℕ}

theorem Selected.getD_mem (h : Selected k m rows) (r : Fin k) : rows.getD r 0 ∈ rows := by
  have hr : r.val < rows.length := by rw [h.length]; exact r.isLt
  rw [List.getD_eq_getElem rows 0 hr]
  exact List.getElem_mem hr

theorem Selected.getD_inj (h : Selected k m rows) {r s : Fin k}
    (heq : rows.getD r 0 = rows.getD s 0) : r = s := by
  have hr : r.val < rows.length := by rw [h.length]; exact r.isLt
  have hs : s.val < rows.length := by rw [h.length]; exact s.isLt
  rw [List.getD_eq_getElem rows 0 hr, List.getD_eq_getElem rows 0 hs] at heq
  exact Fin.ext ((h.nodup.getElem_inj_iff).1 heq)

theorem ofNat_inj {i j : ℕ} (hi : i < 256) (hj : j < 256)
    (h : (⟨UInt8.ofNat i⟩ : Gf) = ⟨UInt8.ofNat j⟩) : i = j := by
  have hbyte := congrArg (fun g => g.byte.toNat) h
  simpa only [UInt8.toNat_ofNat', Nat.mod_eq_of_lt hi, Nat.mod_eq_of_lt hj] using hbyte

/-- A row past the data pieces is a row of the Cauchy matrix: `x ^ y` is `x - y`. -/
theorem generator_parity {r c : ℕ} (hr : k ≤ r) (hc : c < k) (hr256 : r < 256) :
    (⟨generator k r c⟩ : Gf) = ((⟨UInt8.ofNat r⟩ : Gf) - ⟨UInt8.ofNat c⟩)⁻¹ := by
  have hne : UInt8.ofNat (r ^^^ c) ≠ 0 := by
    intro h
    rw [UInt8.ofNat_xor, UInt8.xor_eq_zero_iff] at h
    have := ofNat_inj hr256 (by omega) (congrArg Gf.mk h)
    omega
  rw [generator, if_neg (not_lt.2 hr), ← Gf.inv_mk hne, UInt8.ofNat_xor]
  rfl

theorem generator_data {r c : ℕ} (hr : r < k) :
    (⟨generator k r c⟩ : Gf) = if r = c then 1 else 0 := by
  rw [generator, if_pos hr]
  by_cases hrc : r = c
  · rw [if_pos hrc, if_pos hrc]
    rfl
  · rw [if_neg hrc, if_neg hrc]
    rfl

/-- **The rows of any `k` pieces are independent.** -/
theorem rows_independent (h : Selected k m rows) (hkm : k + m ≤ 256) (v : Fin k → Gf)
    (hv : ∀ r, lead k ((elimStart k rows).rows r) ⬝ᵥ v = 0) : v = 0 := by
  have hlt : ∀ r : Fin k, rows.getD r 0 < 256 := fun r => by
    have := h.lt _ (h.getD_mem r)
    omega
  have hcol : ∀ c : Fin k, c.val < 256 := fun c => by omega
  have hrow : ∀ r : Fin k, ∑ c : Fin k, (⟨generator k (rows.getD r 0) c⟩ : Gf) * v c = 0 := by
    intro r
    rw [← hv r, dotProduct]
    refine Finset.sum_congr rfl fun c _ => ?_
    rw [lead_rows, elimStart, Grid.at_of]
  refine eq_zero_of_identity_over_cauchy
    (u := fun r : Fin k => if hr : rows.getD r 0 < k then some ⟨rows.getD r 0, hr⟩ else none)
    (x := fun r : Fin k => ⟨UInt8.ofNat (rows.getD r 0)⟩)
    (y := fun c : Fin k => ⟨UInt8.ofNat c⟩) ?_ ?_ ?_ ?_ ?_ ?_
  · intro r s d hr hs
    split_ifs at hr hs with hr' hs'
    have heq := (Option.some.inj hr).trans (Option.some.inj hs).symm
    exact h.getD_inj (congrArg Fin.val heq)
  · intro r s _ _ heq
    exact h.getD_inj (ofNat_inj (hlt r) (hlt s) heq)
  · intro c d heq
    exact Fin.ext (ofNat_inj (hcol c) (hcol d) heq)
  · intro r c hr heq
    split_ifs at hr with hr'
    have := ofNat_inj (hlt r) (hcol c) heq
    omega
  · intro r d hr
    split_ifs at hr with hr'
    obtain rfl := Option.some.inj hr
    have hsum := hrow r
    simp only [generator_data hr', ite_mul, one_mul, zero_mul] at hsum
    rw [Finset.sum_eq_single (⟨rows.getD r 0, hr'⟩ : Fin k)] at hsum
    · rwa [if_pos rfl] at hsum
    · intro c _ hc
      exact if_neg fun heq => hc (Fin.ext heq.symm)
    · exact fun hmem => absurd (Finset.mem_univ _) hmem
  · intro r hr
    split_ifs at hr with hr'
    rw [← hrow r]
    refine Finset.sum_congr rfl fun c _ => ?_
    rw [generator_parity (not_lt.1 hr') c.isLt (hlt r)]

/-! ### The loop over the columns -/

/-- A pivot is found where there is one. -/
theorem exists_findPivot {e : Elim k} {c : Fin k} (h : ∃ p, c ≤ p ∧ lead k (e.rows p) c ≠ 0) :
    ∃ p, findPivot e c = some p ∧ c ≤ p ∧ lead k (e.rows p) c ≠ 0 := by
  obtain ⟨q, hcq, hq⟩ := h
  have hsome : (findPivot e c).isSome := by
    rw [findPivot, List.find?_isSome]
    refine ⟨q, List.mem_finRange q, decide_eq_true ⟨hcq, fun hzero => hq ?_⟩⟩
    rw [lead_rows, hzero]
    rfl
  obtain ⟨p, hp⟩ := Option.isSome_iff_exists.1 hsome
  obtain ⟨hcp, hne⟩ := findPivot_spec hp
  refine ⟨p, hp, hcp, fun hzero => hne ?_⟩
  rw [lead_rows] at hzero
  exact congrArg Gf.byte hzero

/-- **The elimination goes through**, by columns: after `n` of them the rows are reduced. -/
theorem foldlM_elimColumn (h : Selected k m rows) (hkm : k + m ≤ 256) {n : ℕ} (hn : n ≤ k) :
    ∃ e, ((List.finRange k).take n).foldlM elimColumn (elimStart k rows) = some e ∧
      Reduced (lead k) (elimStart k rows).rows e.rows n := by
  induction n with
  | zero => exact ⟨_, rfl, Reduced.init⟩
  | succ n ih =>
    obtain ⟨e, he, hred⟩ := ih (by omega)
    have hlen : n < (List.finRange k).length := by rw [List.length_finRange]; omega
    obtain ⟨p, hp, hcp, hpivot⟩ := exists_findPivot
      (Reduced.exists_pivot (c := ⟨n, hn⟩) hred (rows_independent h hkm))
    obtain ⟨e', he', hrows⟩ := elimColumn_rows hp
    refine ⟨e', ?_, ?_⟩
    · rw [List.take_succ_eq_append_getElem hlen, List.foldlM_append, he]
      show List.foldlM elimColumn e [(List.finRange k)[n]] = some e'
      rw [List.foldlM_cons, List.getElem_finRange]
      show (elimColumn e ⟨n, hn⟩).bind _ = some e'
      rw [he']
      rfl
    · rw [hrows]
      exact Reduced.reduceRows (c := ⟨n, hn⟩) hred hcp hpivot

/-- **No column is without a pivot**, and the inverse solves for what the rows were of. -/
theorem eliminate_spec (h : Selected k m rows) (hkm : k + m ≤ 256) :
    ∃ e, eliminate k rows = some e ∧
      ∀ v w : Fin k → Gf, 
        (∀ r : Fin k, ∑ c : Fin k, (⟨generator k (rows.getD r 0) c⟩ : Gf) * v c = w r) →
          ∀ r, ∑ i : Fin k, (⟨e.inv.at r i⟩ : Gf) * w i = v r := by
  obtain ⟨e, he, hred⟩ := foldlM_elimColumn h hkm (le_refl k)
  have hall : (List.finRange k).take k = List.finRange k :=
    List.take_of_length_le (by rw [List.length_finRange])
  rw [hall] at he
  refine ⟨e, he, fun v w hvw r => ?_⟩
  have hsolve := hred.solve (Fintype.linearCombination Gf w ∘ₗ LinearMap.snd Gf _ _)
    (v := v) ?_ r
  · exact hsolve
  · intro s
    rw [LinearMap.comp_apply, Fintype.linearCombination_apply, dotProduct]
    have hleft : ∑ c : Fin k, lead k ((elimStart k rows).rows s) c * v c = w s := by
      rw [← hvw s]
      refine Finset.sum_congr rfl fun c _ => ?_
      rw [lead_rows, elimStart, Grid.at_of]
    have hright : ∀ i : Fin k, LinearMap.snd Gf (Fin k → Gf) (Fin k → Gf)
        ((elimStart k rows).rows s) i • w i = if s = i then w i else 0 := by
      intro i
      show (⟨(elimStart k rows).inv.at s i⟩ : Gf) * w i = _
      rw [elimStart, Grid.at_of]
      by_cases hsi : s = i
      · rw [if_pos hsi, if_pos hsi]
        exact one_mul (w i)
      · rw [if_neg hsi, if_neg hsi]
        exact zero_mul (w i)
    rw [hleft, Finset.sum_congr rfl fun i _ => hright i, Finset.sum_ite_eq,
      if_pos (Finset.mem_univ s)]

end Rows

/-! ### What the pieces are -/

section Pieces

variable {k : ℕ}

/-- The pieces of `len` bytes have room for them. -/
theorem le_mul_erasurePieceLen (len : ℕ) (hk : k ≠ 0) : len ≤ k * erasurePieceLen len k := by
  by_cases hlen : len = 0
  · omega
  rw [erasurePieceLen, if_neg (not_or.2 ⟨hk, hlen⟩)]
  have hdiv := Nat.div_add_mod len k
  have hmod := Nat.mod_lt len (Nat.pos_of_ne_zero hk)
  by_cases hzero : len % k = 0
  · rw [if_neg (not_not.2 hzero), Nat.add_zero]
    omega
  · rw [if_pos hzero, Nat.mul_add, Nat.mul_one]
    omega

theorem length_dataPieces (hk : k ≠ 0) (data : Bytes) :
    (dataPieces k data).length = k * erasurePieceLen data.length k := by
  have hroom := le_mul_erasurePieceLen data.length hk
  rw [dataPieces, length_store, List.length_replicate]
  rw [List.length_replicate]
  omega

/-- The buffer stands at the start of its pieces. -/
theorem getD_dataPieces {data : Bytes} {i : ℕ} (hi : i < data.length) :
    (dataPieces k data).getD i 0 = data.getD i 0 := by
  rw [List.getD_eq_getElem?_getD, dataPieces, store, List.take_zero, List.nil_append,
    List.getElem?_append_left hi, List.getD_eq_getElem?_getD]

theorem getD_load {buf : Bytes} {off len b : ℕ} (hb : b < len) :
    (load buf off len).getD b 0 = buf.getD (off + b) 0 := by
  rw [List.getD_eq_getElem?_getD, getElem?_load hb, List.getD_eq_getElem?_getD]

theorem length_addScaled (coef : UInt8) {piece parity : Bytes}
    (h : piece.length = parity.length) : (addScaled coef piece parity).length = parity.length := by
  rw [addScaled, List.length_zipWith, h, Nat.min_self]

theorem getD_addScaled {coef : UInt8} {piece parity : Bytes} {b : ℕ}
    (h : piece.length = parity.length) (hb : b < parity.length) :
    (addScaled coef piece parity).getD b 0 = parity.getD b 0 ^^^ gfMul coef (piece.getD b 0) := by
  rw [List.getD_eq_getElem _ 0 (by rw [length_addScaled coef h]; exact hb),
    List.getD_eq_getElem _ 0 hb, List.getD_eq_getElem _ 0 (by omega)]
  exact List.getElem_zipWith

/-- The loop over the data pieces adds up byte by byte. -/
theorem foldl_addScaled {plen : ℕ} {pieces : Bytes} {coef : Fin k → UInt8}
    (hpieces : pieces.length = k * plen) (cs : List (Fin k)) {parity : Bytes}
    (hparity : parity.length = plen) :
    (cs.foldl (fun parity c => addScaled (coef c) (load pieces (c * plen) plen) parity)
        parity).length = plen ∧
      ∀ b < plen,
        (cs.foldl (fun parity c => addScaled (coef c) (load pieces (c * plen) plen) parity)
          parity).getD b 0 =
        cs.foldl (fun v c => v ^^^ gfMul (coef c) (pieces.getD (c * plen + b) 0))
          (parity.getD b 0) := by
  induction cs generalizing parity with
  | nil => exact ⟨hparity, fun _ _ => rfl⟩
  | cons c cs ih =>
    have hroom : c * plen + plen ≤ pieces.length := by
      rw [hpieces, ← Nat.succ_mul]
      exact Nat.mul_le_mul_right plen c.isLt
    have hlen : (load pieces (c * plen) plen).length = parity.length := by
      rw [length_load hroom, hparity]
    obtain ⟨hfold, hbyte⟩ := ih ((length_addScaled (coef c) hlen).trans hparity)
    refine ⟨hfold, fun b hb => ?_⟩
    rw [List.foldl_cons, hbyte b hb, List.foldl_cons,
      getD_addScaled hlen (by omega), getD_load hb]

theorem length_parityPiece {plen j : ℕ} {pieces : Bytes} (hpieces : pieces.length = k * plen) :
    (parityPiece k plen pieces j).length = plen :=
  (foldl_addScaled hpieces _ List.length_replicate).1

/-- **Every piece is its row of the generator over the data pieces.** -/
theorem getD_codedPieces {m : ℕ} {data : Bytes} (hk : k ≠ 0) {i b : ℕ} (hi : i < k + m)
    (hb : b < erasurePieceLen data.length k) :
    (⟨(load (codedPieces k m data) (i * erasurePieceLen data.length k)
        (erasurePieceLen data.length k)).getD b 0⟩ : Gf) =
      ∑ c : Fin k, (⟨generator k i c⟩ : Gf) *
        ⟨(dataPieces k data).getD (c * erasurePieceLen data.length k + b) 0⟩ := by
  have hlen := length_dataPieces hk data
  generalize hplen : erasurePieceLen data.length k = plen at hb hlen ⊢
  by_cases hik : i < k
  · have hin : i * plen + b < (dataPieces k data).length := by
      have := Nat.mul_le_mul_right plen (Nat.succ_le_of_lt hik)
      rw [Nat.succ_mul] at this
      omega
    have hterm : ∀ c : Fin k, (⟨generator k i c⟩ : Gf) *
        ⟨(dataPieces k data).getD (c * plen + b) 0⟩ =
          if (⟨i, hik⟩ : Fin k) = c then ⟨(dataPieces k data).getD (i * plen + b) 0⟩ else 0 := by
      intro c
      rw [generator_data hik]
      by_cases hic : i = c
      · rw [if_pos hic, if_pos (Fin.ext hic), one_mul, hic]
      · rw [if_neg hic, if_neg fun h => hic (congrArg Fin.val h), zero_mul]
    rw [Finset.sum_congr rfl fun c _ => hterm c, Finset.sum_ite_eq,
      if_pos (Finset.mem_univ _), getD_load hb, codedPieces, List.getD_eq_getElem?_getD,
      List.getElem?_append_left hin, List.getD_eq_getElem?_getD]
  · obtain ⟨j, rfl⟩ := Nat.exists_eq_add_of_le (not_lt.1 hik)
    have hj : j < (List.range m).length := by rw [List.length_range]; omega
    have hblock : load (codedPieces k m data) ((k + j) * plen) plen =
        parityPiece k plen (dataPieces k data) j := by
      have hcut := block_flatMap (l := List.range m) (k := plen)
        (fun x _ => length_parityPiece (j := x) hlen) hj
      rw [List.getElem_range] at hcut
      rw [← hcut, load, codedPieces, hplen, Nat.add_mul, ← hlen, List.drop_length_add_append]
    have hzero : (List.replicate plen (0 : UInt8)).getD b 0 = 0 := List.getD_replicate _ hb
    rw [hblock, parityPiece, (foldl_addScaled hlen _ List.length_replicate).2 b hb, hzero,
      Fin.sum_univ_def, ← Gf.foldl_xor fun c : Fin k => (⟨generator k (k + j) c⟩ : Gf) *
        ⟨(dataPieces k data).getD (c * plen + b) 0⟩]
    rfl

/-! ### Rebuilding -/

/-- The pieces of an encoded buffer that are kept, the others null. -/
def keptPieces (keep : ℕ → Bool) (plen : ℕ) (coded : Bytes) (i : ℕ) : Option Bytes :=
  if keep i then some (load coded (i * plen) plen) else none

theorem isSome_keptPieces (keep : ℕ → Bool) (plen : ℕ) (coded : Bytes) :
    (fun i => (keptPieces keep plen coded i).isSome) = keep := by
  funext i
  rw [keptPieces]
  cases keep i <;> rfl

theorem length_heldRows (k m : ℕ) (pieces : ℕ → Option Bytes) :
    (heldRows k m pieces).length =
      min k ((List.range ((k + m) % 2 ^ 32)).countP fun i => (pieces i).isSome) := by
  rw [heldRows, List.length_take, List.countP_eq_length_filter]

/-- The pieces used are a selection, once there are `k`. -/
theorem selected_heldRows {m : ℕ} {pieces : ℕ → Option Bytes}
    (h : ¬ (heldRows k m pieces).length < k) : Selected k m (heldRows k m pieces) := by
  refine ⟨?_, ?_, ?_⟩
  · have hle := length_heldRows k m pieces
    omega
  · exact (List.nodup_range.filter _).sublist (List.take_sublist _ _)
  · intro i hi
    have hlt := List.mem_range.1 (List.mem_filter.1 (List.mem_of_mem_take hi)).1
    exact Nat.lt_of_lt_of_le hlt (Nat.mod_le _ _)

theorem isSome_of_mem_heldRows {m i : ℕ} {pieces : ℕ → Option Bytes}
    (hi : i ∈ heldRows k m pieces) : (pieces i).isSome :=
  (List.mem_filter.1 (List.mem_of_mem_take hi)).2

/-- The inverse over the bytes held is the byte of the data piece. -/
theorem rebuiltByte_eq {inv : Grid k} {held : ℕ → ℕ → UInt8} {r : Fin k} {b : ℕ} {v : UInt8}
    (h : ∑ i : Fin k, (⟨inv.at r i⟩ : Gf) * ⟨held i b⟩ = ⟨v⟩) : rebuiltByte inv held r b = v := by
  have hsum := Gf.foldl_xor (fun i : Fin k => (⟨inv.at r i⟩ : Gf) * ⟨held i b⟩) (List.finRange k)
  rw [← Fin.sum_univ_def, h] at hsum
  exact congrArg Gf.byte hsum

/-- **The last loop writes the buffer and no more**: after `n` data pieces, as much of it as
they are. -/
theorem foldl_writeRow {plen : ℕ} {data : Bytes} {inv : Grid k} {held : ℕ → ℕ → UInt8}
    (hbyte : ∀ r : Fin k, ∀ b < plen,
      rebuiltByte inv held r b = (dataPieces k data).getD (r * plen + b) 0)
    {n : ℕ} (hn : n ≤ k) :
    ((List.finRange k).take n).foldl (writeRow data.length plen inv held) [] =
      data.take (n * plen) := by
  induction n with
  | zero => rw [Nat.zero_mul, List.take_zero, List.take_zero, List.foldl_nil]
  | succ n ih =>
    have hlen : n < (List.finRange k).length := by rw [List.length_finRange]; omega
    rw [List.take_succ_eq_append_getElem hlen, List.foldl_append, ih (by omega), List.foldl_cons,
      List.foldl_nil, List.getElem_finRange, writeRow, List.length_take, Nat.succ_mul]
    by_cases hroom : n * plen < data.length
    · rw [if_pos (by omega), List.take_add, Nat.min_eq_left hroom.le]
      congr 1
      refine List.ext_getElem ?_ fun b hb hb' => ?_
      · rw [List.length_map, List.length_range, List.length_take, List.length_drop, Nat.min_comm]
      · rw [List.length_map, List.length_range] at hb
        rw [List.getElem_map, List.getElem_range, hbyte _ b (by omega)]
        show (dataPieces k data).getD (n * plen + b) 0 = _
        rw [getD_dataPieces (by omega), List.getD_eq_getElem _ 0 (by omega), List.getElem_take,
          List.getElem_drop]
    · rw [if_neg (by omega), List.take_of_length_le (by omega), List.take_of_length_le (by omega)]

theorem shapeOk_eq_true {m len : ℕ} (hk : 1 ≤ k) (hm : 1 ≤ m) (hkm : k + m ≤ 32)
    (hlen : len ≠ 0) : shapeOk k m len = true := by
  have hmod : (k + m) % 2 ^ 32 = k + m := Nat.mod_eq_of_lt (by omega)
  rw [shapeOk, decide_eq_true_iff, hmod, erasurePiecesMax]
  omega

/-- **Decoding what was kept of an encoded buffer.** -/
theorem erasureDecode_kept {m : ℕ} {data : Bytes} {keep : ℕ → Bool} (hk : 1 ≤ k) (hm : 1 ≤ m)
    (hkm : k + m ≤ 32) (hdata : data ≠ []) (hkeep : k ≤ (List.range (k + m)).countP keep) :
    erasureDecode k m
      (keptPieces keep (erasurePieceLen data.length k) (codedPieces k m data)) data.length =
        .ok data := by
  have hk0 : k ≠ 0 := by omega
  have hshape := shapeOk_eq_true hk hm hkm (mt List.length_eq_zero_iff.1 hdata)
  have hroom := le_mul_erasurePieceLen data.length hk0
  generalize hpieces : keptPieces keep (erasurePieceLen data.length k) (codedPieces k m data) =
    pieces
  have hsome : (fun i => (pieces i).isSome) = keep := by
    rw [← hpieces, isSome_keptPieces]
  have hcount : ¬ (heldRows k m pieces).length < k := by
    rw [length_heldRows, hsome, Nat.mod_eq_of_lt (by omega)]
    omega
  have hsel := selected_heldRows hcount
  have hheld : ∀ i ∈ heldRows k m pieces, pieces i =
      some (load (codedPieces k m data) (i * erasurePieceLen data.length k)
        (erasurePieceLen data.length k)) := by
    intro i hi
    have hk' := congrFun hsome i
    rw [isSome_of_mem_heldRows hi] at hk'
    rw [← hpieces, keptPieces, ← hk', if_pos rfl]
  obtain ⟨e, he, hsolve⟩ := eliminate_spec hsel (by omega)
  have hbyte : ∀ r : Fin k, ∀ b < erasurePieceLen data.length k,
      rebuiltByte e.inv (heldByte pieces (heldRows k m pieces)) r b =
        (dataPieces k data).getD (r * erasurePieceLen data.length k + b) 0 := by
    intro r b hb
    refine rebuiltByte_eq (hsolve
      (fun c => ⟨(dataPieces k data).getD (c * erasurePieceLen data.length k + b) 0⟩) _
      (fun s => ?_) r)
    rw [heldByte, hheld _ (hsel.getD_mem s), Option.getD_some,
      getD_codedPieces hk0 (hsel.lt _ (hsel.getD_mem s)) hb]
  have hall : (List.finRange k).take k = List.finRange k :=
    List.take_of_length_le (by rw [List.length_finRange])
  have hwrite := foldl_writeRow hbyte (le_refl k)
  rw [hall, List.take_of_length_le hroom] at hwrite
  rw [erasureDecode, if_neg (by rw [hshape]; decide), if_neg hcount, he]
  simp only [hwrite]

/-- **No return for want of a pivot**: where the shape is right, `fzn_erasure_decode` never
answers malformed, whatever the pieces held and their bytes. -/
theorem erasureDecode_ne_malformed {m len : ℕ} (hk : 1 ≤ k) (hm : 1 ≤ m) (hkm : k + m ≤ 32)
    (hlen : len ≠ 0) (pieces : ℕ → Option Bytes) :
    erasureDecode k m pieces len ≠ .error .malformed := by
  rw [erasureDecode, if_neg (by rw [shapeOk_eq_true hk hm hkm hlen]; decide)]
  by_cases hcount : (heldRows k m pieces).length < k
  · rw [if_pos hcount]
    intro h
    cases h
  · obtain ⟨e, he, _⟩ := eliminate_spec (selected_heldRows hcount) (by omega)
    rw [if_neg hcount, he]
    intro h
    cases h

end Pieces

/-- **Any `k` pieces rebuild the buffer.**  Encoding answers the pieces, `k + m` of one
length.  Decoding any of them that are `k` or more answers the buffer, exactly its bytes, and
decoding fewer answers too few.  The elimination never lacks a pivot: no pieces at all, from
an encoding or not, make decoding answer malformed. -/
theorem any_k_pieces_rebuild (k m : ℕ) (data : Bytes) (hk : 1 ≤ k) (hm : 1 ≤ m)
    (hkm : k + m ≤ 32) (hdata : data ≠ []) :
    ∃ coded, erasureEncode k m data = .ok coded ∧
      coded.length = (k + m) * erasurePieceLen data.length k ∧
      (∀ keep : ℕ → Bool,
        (k ≤ (List.range (k + m)).countP keep →
          erasureDecode k m (keptPieces keep (erasurePieceLen data.length k) coded) data.length =
            .ok data) ∧
        ((List.range (k + m)).countP keep < k →
          erasureDecode k m (keptPieces keep (erasurePieceLen data.length k) coded) data.length =
            .error .tooFew)) ∧
      ∀ pieces len, len ≠ 0 → erasureDecode k m pieces len ≠ .error .malformed := by
  have hlen0 : data.length ≠ 0 := mt List.length_eq_zero_iff.1 hdata
  have hshape := shapeOk_eq_true hk hm hkm hlen0
  refine ⟨codedPieces k m data, ?_, ?_, fun keep => ⟨?_, ?_⟩, ?_⟩
  · rw [erasureEncode, if_neg (by rw [hshape]; decide)]
  · have hdatalen := length_dataPieces (show k ≠ 0 by omega) data
    rw [codedPieces, List.length_append, hdatalen,
      length_flatMap_blocks fun j _ => length_parityPiece hdatalen, List.length_range, Nat.add_mul]
  · exact erasureDecode_kept hk hm hkm hdata
  · intro hfew
    have hcount := length_heldRows k m
      (keptPieces keep (erasurePieceLen data.length k) (codedPieces k m data))
    rw [isSome_keptPieces, Nat.mod_eq_of_lt (by omega)] at hcount
    rw [erasureDecode, if_neg (by rw [hshape]; decide), if_pos (by omega)]
  · exact fun pieces len hlen => erasureDecode_ne_malformed hk hm hkm hlen pieces

/-- Three bytes in two data pieces and a parity piece. -/
theorem any_k_pieces_rebuild_two_one :
    ∃ coded, erasureEncode 2 1 [1, 2, 3] = .ok coded ∧
      coded.length = (2 + 1) * erasurePieceLen [1, 2, 3].length 2 ∧
      (∀ keep : ℕ → Bool,
        (2 ≤ (List.range (2 + 1)).countP keep →
          erasureDecode 2 1 (keptPieces keep (erasurePieceLen [1, 2, 3].length 2) coded)
            [1, 2, 3].length = .ok [1, 2, 3]) ∧
        ((List.range (2 + 1)).countP keep < 2 →
          erasureDecode 2 1 (keptPieces keep (erasurePieceLen [1, 2, 3].length 2) coded)
            [1, 2, 3].length = .error .tooFew)) ∧
      ∀ pieces len, len ≠ 0 → erasureDecode 2 1 pieces len ≠ .error .malformed :=
  any_k_pieces_rebuild 2 1 [1, 2, 3] (by decide) (by decide) (by decide) (by decide)

/-! ## The shape a code may have

`shape_ok` is to let no more than `FZN_ERASURE_PIECES_MAX` pieces past, so that the arrays of
`fzn_erasure_decode` hold a row for each.  The sum of `k` and `m` is an `unsigned`: where it
wraps it is less than either, and a shape of some four thousand million pieces goes past
(`shape_admission`).  Decoding is saved by the same sum, which bounds its search for the
pieces: it never has `k` of them (`heldRows_wrapped`).  Encoding is not. -/

/-- The shapes there may be. -/
structure Admissible (k m len : ℕ) : Prop where
  data : 1 ≤ k
  parity : 1 ≤ m
  bytes : 1 ≤ len
  pieces : k + m ≤ erasurePiecesMax

/-- The sum wraps to one that is small enough. -/
def Wrapped (k m : UInt32) : Prop :=
  2 ^ 32 ≤ k.toNat + m.toNat ∧ k.toNat + m.toNat ≤ 2 ^ 32 + erasurePiecesMax

/-- **What goes past the check**: an admissible shape, or one whose sum wraps. -/
theorem shapeOk_iff (k m : UInt32) (len : ℕ) :
    shapeOk k.toNat m.toNat len = true ↔
      Admissible k.toNat m.toNat len ∨ Wrapped k m ∧ len ≠ 0 := by
  have hk := k.toNat_lt
  have hm := m.toNat_lt
  rw [shapeOk, decide_eq_true_iff]
  constructor
  · rintro ⟨hk0, hm0, hsum, hlen⟩
    by_cases hwraps : 2 ^ 32 ≤ k.toNat + m.toNat
    · refine .inr ⟨⟨hwraps, ?_⟩, hlen⟩
      omega
    · rw [Nat.mod_eq_of_lt (Nat.lt_of_not_le hwraps)] at hsum
      exact .inl ⟨by omega, by omega, by omega, hsum⟩
  · rintro (⟨hk1, hm1, hlen, hsum⟩ | ⟨⟨hwraps, hsum⟩, hlen⟩)
    · unfold erasurePiecesMax at *
      omega
    · unfold erasurePiecesMax at *
      omega

/-- Where the sum wraps, decoding never finds `k` pieces. -/
theorem heldRows_wrapped {k m : UInt32} (h : Wrapped k m) (pieces : ℕ → Option Bytes) :
    (heldRows k.toNat m.toNat pieces).length < k.toNat := by
  have hm := m.toNat_lt
  have hcount := List.countP_le_length (p := fun i => (pieces i).isSome)
    (l := List.range ((k.toNat + m.toNat) % 2 ^ 32))
  obtain ⟨hwraps, hsum⟩ := h
  rw [List.length_range] at hcount
  rw [length_heldRows]
  unfold erasurePiecesMax at hsum
  omega

/-- Encoding answers malformed by its check alone. -/
theorem erasureEncode_ne_malformed_iff (k m : ℕ) (data : Bytes) :
    erasureEncode k m data ≠ .error .malformed ↔ shapeOk k m data.length = true := by
  rw [erasureEncode]
  split_ifs with hshape
  · simp [hshape]
  · simp [Bool.eq_true_of_not_eq_false hshape]

/-- **Decoding answers malformed by its check alone**, whatever the pieces held. -/
theorem erasureDecode_ne_malformed_iff (k m : UInt32) (pieces : ℕ → Option Bytes) (len : ℕ) :
    erasureDecode k.toNat m.toNat pieces len ≠ .error .malformed ↔
      shapeOk k.toNat m.toNat len = true := by
  constructor
  · intro h
    by_contra hshape
    exact h (by rw [erasureDecode, if_pos (Bool.eq_false_iff.2 hshape)])
  · intro hshape
    rcases (shapeOk_iff k m len).1 hshape with ⟨hk, hm, hlen, hkm⟩ | ⟨hwraps, -⟩
    · exact erasureDecode_ne_malformed hk hm hkm (by omega) pieces
    · rw [erasureDecode, if_neg (by rw [hshape]; decide), if_pos (heldRows_wrapped hwraps pieces)]
      intro h
      cases h

/-- The rows held are as many as there is room for, and so is the matrix that is inverted. -/
theorem heldRows_in_range {k m : UInt32} {len : ℕ} (hshape : shapeOk k.toNat m.toNat len = true)
    (pieces : ℕ → Option Bytes) :
    (heldRows k.toNat m.toNat pieces).length ≤ erasurePiecesMax ∧
      (¬ (heldRows k.toNat m.toNat pieces).length < k.toNat → k.toNat ≤ erasurePiecesMax) := by
  have hcount := List.countP_le_length (p := fun i => (pieces i).isSome)
    (l := List.range ((k.toNat + m.toNat) % 2 ^ 32))
  have hsum := (of_decide_eq_true hshape).2.2.1
  rw [List.length_range] at hcount
  rw [length_heldRows]
  omega

/-- **Only an admissible shape goes past the checks**, and every row of decoding is in range,
exactly when the sum does not wrap to one that is small enough. -/
theorem shape_admission (k m : UInt32) (len : UInt64) :
    ((∀ data : Bytes, data.length = len.toNat →
        erasureEncode k.toNat m.toNat data ≠ .error .malformed →
          Admissible k.toNat m.toNat len.toNat) ∧
      (∀ pieces, erasureDecode k.toNat m.toNat pieces len.toNat ≠ .error .malformed →
        Admissible k.toNat m.toNat len.toNat ∧
          (heldRows k.toNat m.toNat pieces).length ≤ erasurePiecesMax)) ↔
      ¬ (Wrapped k m ∧ len ≠ 0) := by
  have hlen : len ≠ 0 ↔ len.toNat ≠ 0 := by
    rw [ne_eq, ne_eq, ← UInt64.toNat_inj]
    rfl
  constructor
  · rintro ⟨-, hdecode⟩ ⟨hwraps, hnonempty⟩
    have hshape := (shapeOk_iff k m len.toNat).2 (.inr ⟨hwraps, hlen.1 hnonempty⟩)
    have hpast := (erasureDecode_ne_malformed_iff k m (fun _ => none) len.toNat).2 hshape
    have hfew := (hdecode _ hpast).1.pieces
    have hmany := hwraps.1
    unfold erasurePiecesMax at hfew
    omega
  · intro hno
    have hadmits : shapeOk k.toNat m.toNat len.toNat = true →
        Admissible k.toNat m.toNat len.toNat := fun hshape =>
      ((shapeOk_iff k m len.toNat).1 hshape).resolve_right fun h => hno ⟨h.1, hlen.2 h.2⟩
    refine ⟨fun data hdata hpast => ?_, fun pieces hpast => ?_⟩
    · rw [erasureEncode_ne_malformed_iff, hdata] at hpast
      exact hadmits hpast
    · rw [erasureDecode_ne_malformed_iff] at hpast
      exact ⟨hadmits hpast, (heldRows_in_range hpast pieces).1⟩

/-- **Four thousand million pieces and two go past the checks.** -/
theorem shape_admits_wrapped :
    ¬ ∀ (k m : UInt32) (len : UInt64),
      (∀ data : Bytes, data.length = len.toNat →
        erasureEncode k.toNat m.toNat data ≠ .error .malformed →
          Admissible k.toNat m.toNat len.toNat) ∧
      (∀ pieces, erasureDecode k.toNat m.toNat pieces len.toNat ≠ .error .malformed →
        Admissible k.toNat m.toNat len.toNat ∧
          (heldRows k.toNat m.toNat pieces).length ≤ erasurePiecesMax) := by
  intro hall
  have hpast := (erasureEncode_ne_malformed_iff 4294967295 2 [0]).2 (by decide)
  exact absurd ((hall 4294967295 2 1).1 [0] rfl hpast).pieces (by decide)

end Chunk
end Fuzznet
