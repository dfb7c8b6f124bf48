/-
# A buffer used round

A range of a fixed buffer that goes on at its start where it passes the end: `roundLoad` and
`roundStore` are one `memcpy` up to the end and one from the start for the rest.  Read or
written so, cell `i` behind `pos` is cell `(pos + i) % N` of the buffer (`getElem?_roundLoad`,
`getElem?_roundStore`), and no two of the first `N` are one.  So a range is read back as it
was written, one written behind another leaves it, and two ranges one behind the other are
one.
-/

import Fuzznet.Lib.Buffer

namespace Fuzznet
namespace Lib

variable {α : Type*}

/-- The `n` values from `pos`, round. -/
def roundLoad (buf : List α) (pos n : ℕ) : List α :=
  load buf pos (min (buf.length - pos) n) ++ load buf 0 (n - min (buf.length - pos) n)

/-- The buffer with `vs` written from `pos`, round. -/
def roundStore (buf : List α) (pos : ℕ) (vs : List α) : List α :=
  store (store buf pos (vs.take (buf.length - pos))) 0 (vs.drop (buf.length - pos))

/-- A place less than one turn on. -/
theorem mod_of_lt_two_mul {k N : ℕ} (h : k < 2 * N) : k % N = if k < N then k else k - N := by
  split_ifs with hlt
  · exact Nat.mod_eq_of_lt hlt
  · rw [Nat.mod_eq_sub_mod (Nat.not_lt.1 hlt), Nat.mod_eq_of_lt (by omega)]

section Round

variable {buf vs : List α} {pos n m i : ℕ}

theorem getElem?_roundLoad (hpos : pos < buf.length) (hn : n ≤ buf.length) (hi : i < n) :
    (roundLoad buf pos n)[i]? = buf[(pos + i) % buf.length]? := by
  have hfirst : (load buf pos (min (buf.length - pos) n)).length = min (buf.length - pos) n :=
    length_load (by omega)
  rw [mod_of_lt_two_mul (by omega), roundLoad]
  split_ifs with hend
  · rw [List.getElem?_append_left (by omega), getElem?_load (by omega)]
  · rw [List.getElem?_append_right (by omega), getElem?_load (by omega), hfirst]
    congr 1
    omega

theorem length_roundLoad (hpos : pos < buf.length) (hn : n ≤ buf.length) :
    (roundLoad buf pos n).length = n := by
  rw [roundLoad, List.length_append, length_load (by omega), length_load (by omega)]
  omega

theorem length_roundStore (hpos : pos < buf.length) (hvs : vs.length ≤ buf.length) :
    (roundStore buf pos vs).length = buf.length := by
  have hfirst : (store buf pos (vs.take (buf.length - pos))).length = buf.length :=
    length_store (by rw [List.length_take]; omega)
  rw [roundStore, length_store (by rw [hfirst, List.length_drop]; omega), hfirst]

theorem getElem?_store {off : ℕ} (h : off + vs.length ≤ buf.length) (i : ℕ) :
    (store buf off vs)[i]? = if off ≤ i ∧ i < off + vs.length then vs[i - off]? else buf[i]? := by
  split_ifs with hin
  · have hself := load_store_self h
    have hget : (load (store buf off vs) off vs.length)[i - off]? =
        (store buf off vs)[off + (i - off)]? := getElem?_load (by omega)
    rw [hself, show off + (i - off) = i by omega] at hget
    exact hget.symm
  · rcases Nat.lt_or_ge i off with hlt | hge
    · exact getElem?_store_of_lt (by omega) hlt
    · exact getElem?_store_of_ge (by omega) (by omega)

/-- **Cell `i` behind the place written at holds value `i`**, and every other cell what it
held. -/
theorem getElem?_roundStore (hpos : pos < buf.length) (hvs : vs.length ≤ buf.length)
    (hi : i < buf.length) : (roundStore buf pos vs)[(pos + i) % buf.length]? =
      if i < vs.length then vs[i]? else buf[(pos + i) % buf.length]? := by
  have hfirst : (store buf pos (vs.take (buf.length - pos))).length = buf.length :=
    length_store (by rw [List.length_take]; omega)
  rw [roundStore, getElem?_store (by rw [hfirst, List.length_drop]; omega),
    getElem?_store (by rw [List.length_take]; omega), mod_of_lt_two_mul (by omega),
    List.length_drop, List.length_take, List.getElem?_drop, List.getElem?_take]
  split_ifs <;> first | omega | (congr 1 <;> omega)

/-- **A range is read back as it was written.** -/
theorem roundLoad_roundStore_self (hpos : pos < buf.length) (hvs : vs.length ≤ buf.length) :
    roundLoad (roundStore buf pos vs) pos vs.length = vs := by
  have hlen := length_roundStore hpos hvs
  refine List.ext_getElem? fun i => ?_
  by_cases hi : i < vs.length
  · rw [getElem?_roundLoad (by omega) (by omega) hi, hlen,
      getElem?_roundStore hpos hvs (by omega), if_pos hi]
  · rw [List.getElem?_eq_none (by rw [length_roundLoad (by omega) (by omega)]; omega),
      List.getElem?_eq_none (by omega)]

/-- **What is written behind a range leaves it.** -/
theorem roundLoad_roundStore_behind (hpos : pos < buf.length) (hfit : n + vs.length ≤ buf.length) :
    roundLoad (roundStore buf ((pos + n) % buf.length) vs) pos n = roundLoad buf pos n := by
  have hat : (pos + n) % buf.length < buf.length := Nat.mod_lt _ (by omega)
  have hlen := length_roundStore hat (show vs.length ≤ buf.length by omega)
  refine List.ext_getElem? fun i => ?_
  by_cases hi : i < n
  · -- cell `i` of the range is cell `i - n` a turn on from what is written
    have hplace : (pos + i) % buf.length =
        ((pos + n) % buf.length + (buf.length - n + i)) % buf.length := by
      rw [Nat.mod_add_mod, show pos + n + (buf.length - n + i) = pos + i + buf.length by omega,
        Nat.add_mod_right]
    rw [getElem?_roundLoad (by omega) (by omega) hi, getElem?_roundLoad hpos (by omega) hi, hlen,
      hplace, getElem?_roundStore hat (by omega) (by omega), if_neg (by omega)]
  · rw [List.getElem?_eq_none (by rw [length_roundLoad (by omega) (by omega)]; omega),
      List.getElem?_eq_none (by rw [length_roundLoad hpos (by omega)]; omega)]

/-- Two ranges one behind the other are one range. -/
theorem roundLoad_add (hpos : pos < buf.length) (hfit : m + n ≤ buf.length) :
    roundLoad buf pos (m + n) =
      roundLoad buf pos m ++ roundLoad buf ((pos + m) % buf.length) n := by
  have hat : (pos + m) % buf.length < buf.length := Nat.mod_lt _ (by omega)
  refine List.ext_getElem? fun i => ?_
  by_cases hi : i < m + n
  · rw [getElem?_roundLoad hpos hfit hi]
    rcases Nat.lt_or_ge i m with him | him
    · rw [List.getElem?_append_left (by rwa [length_roundLoad hpos (by omega)]),
        getElem?_roundLoad hpos (by omega) him]
    · rw [List.getElem?_append_right (by rwa [length_roundLoad hpos (by omega)]),
        length_roundLoad hpos (by omega), getElem?_roundLoad hat (by omega) (by omega),
        Nat.mod_add_mod, show pos + m + (i - m) = pos + i by omega]
  · rw [List.getElem?_eq_none (by rw [length_roundLoad hpos hfit]; omega),
      List.getElem?_eq_none (by
        rw [List.length_append, length_roundLoad hpos (by omega),
          length_roundLoad hat (by omega)]
        omega)]

/-- **A range written behind another is one range with it.** -/
theorem roundLoad_roundStore_append (hpos : pos < buf.length)
    (hfit : n + vs.length ≤ buf.length) :
    roundLoad (roundStore buf ((pos + n) % buf.length) vs) pos (n + vs.length) =
      roundLoad buf pos n ++ vs := by
  have hat : (pos + n) % buf.length < buf.length := Nat.mod_lt _ (by omega)
  have hlen := length_roundStore hat (show vs.length ≤ buf.length by omega)
  have hself := roundLoad_roundStore_self hat (show vs.length ≤ buf.length by omega)
  rw [roundLoad_add (by omega) (by omega), roundLoad_roundStore_behind hpos hfit, hlen, hself]

end Round

end Lib
end Fuzznet
