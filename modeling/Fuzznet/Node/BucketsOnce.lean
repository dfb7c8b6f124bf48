/-
# Every item is counted once

A bucket lists ids in the order they were counted (`Lists`): its row has their number and
their sum, and each chunk row begins with its part of the list.  A chunk may hold an id
more, from a call that stopped before the count; it is read only as far as the count, and
the next id is written over it.

One call of `take` leaves the list or puts its id behind it (`take_lists`), whatever save
fails and wherever it stops.  What it does not do is look for the id in the list.  It
compares the last one, which is enough for a call that stopped between the count and the
mark to be made again, unless another id was counted in between (`counted_twice`).  In a
run where no call is made for an id without a mark that is listed anywhere but last
(`Clear`), no id is listed twice, and the count, the sum and the pages are the list's
(`buckets_count_once`).
-/

import Fuzznet.Lib.Runs
import Fuzznet.Node.Buckets

namespace Fuzznet
namespace Node

open Wire Lib

section Lists

variable {hash : HashOps} {T : Set RowName} {d d' : BucketsDisk} {p q : Place}
variable {L : List Bytes32}

/-- The names of what is kept of a bucket, its items apart. -/
def placeNames (p : Place) : Set RowName :=
  {name | name = .bucket p ∨ name = .gone p ∨ ∃ n, name = .ids p n}

/-- **What a bucket lists.**  Nothing is there yet, or the row has the number and the sum of
the ids, and each chunk begins with its part of them. -/
structure Lists (hash : HashOps) (d : BucketsDisk) (p : Place) (L : List Bytes32) : Prop where
  bucket : loadRow hash d (.bucket p) = some (.bucket p L.length (idSum L)) ∨
    (L = [] ∧ loadRow hash d (.bucket p) = none)
  chunks : ∀ c, chunkIds * c < L.length → ∃ ids, chunkLoad hash d p (UInt32.ofNat c) = some ids ∧
    (L.drop (chunkIds * c)).take chunkIds <+: ids ∧ ids.length ≤ chunkIds
  bound : L.length ≤ chunkIds * (2 ^ 32 - 1)
  here : loadRow hash d (.gone p) = none

/-- Nothing of a bucket changed but items. -/
def SameBucket (hash : HashOps) (p : Place) (d d' : BucketsDisk) : Prop :=
  ∀ name ∈ placeNames p, loadRow hash d' name = loadRow hash d name

theorem SameBucket.trans {d'' : BucketsDisk} (h : SameBucket hash p d d')
    (h' : SameBucket hash p d' d'') : SameBucket hash p d d'' :=
  fun name hname => (h' name hname).trans (h name hname)

theorem Lists.same (h : Lists hash d p L) (hsame : SameBucket hash p d d') :
    Lists hash d' p L := by
  refine ⟨?_, fun c hc => ?_, h.bound, ?_⟩
  · rw [hsame _ (Or.inl rfl)]
    exact h.bucket
  · obtain ⟨ids, hids, hrest⟩ := h.chunks c hc
    refine ⟨ids, ?_, hrest⟩
    rw [chunkLoad_eq] at hids ⊢
    rw [hsame _ (Or.inr (Or.inr ⟨_, rfl⟩)), hids]
  · rw [hsame _ (Or.inr (Or.inl rfl))]
    exact h.here

theorem Lists.gone (h : Lists hash d p L) : bucketsGone hash d p = false := by
  unfold bucketsGone
  rw [h.here]

theorem Lists.bucketLoad (h : Lists hash d p L) (hname : rowOf hash (.bucket p) ≠ none) :
    ∃ held, bucketLoad hash d p = .ok held ∧ held.getD (0, 0) = (L.length, idSum L) := by
  rw [bucketLoad_eq, if_neg hname]
  rcases h.bucket with hrow | ⟨rfl, hrow⟩
  · rw [hrow]
    exact ⟨some (L.length, idSum L), if_pos rfl, rfl⟩
  · rw [hrow]
    exact ⟨none, rfl, rfl⟩

/-- A save under another name leaves a bucket. -/
theorem sameBucket_saveRow {name : RowName} {row : Row} (hT : NamesApart hash T)
    (hp : placeNames p ⊆ T) (hname : name ∈ T) (hother : name ∉ placeNames p) :
    SameBucket hash p d (saveRow hash name row d).2 := by
  intro name' hname'
  refine loadRow_saveRow_ne hT hname (hp hname') ?_
  rintro rfl
  exact hother hname'

theorem sameBucket_of_rows (h : d'.rows = d.rows) : SameBucket hash p d d' :=
  fun name _ => loadRow_congr h name

/-! ## Arithmetic of chunks -/

theorem chunk_div_add (n : ℕ) : chunkIds * (n / chunkIds) + n % chunkIds = n := Nat.div_add_mod n _

theorem ofNat_chunk_inj {c c' : ℕ} (hc : c < 2 ^ 32) (hc' : c' < 2 ^ 32)
    (h : UInt32.ofNat c = UInt32.ofNat c') : c = c' := by
  have h := congrArg UInt32.toNat h
  rw [UInt32.toNat_ofNat', UInt32.toNat_ofNat'] at h
  omega

theorem length_tail (L : List Bytes32) :
    (L.drop (chunkIds * (L.length / chunkIds))).length = L.length % chunkIds := by
  rw [List.length_drop]
  have := chunk_div_add L.length
  omega

theorem idSum_concat (L : List Bytes32) (id : Bytes32) : idSum (L ++ [id]) = idSum L + id := by
  induction L with
  | nil => simp [idSum]
  | cons a L ih =>
    show a + idSum (L ++ [id]) = a + idSum L + id
    rw [ih, BitVec.add_assoc]

/-! ## One id counted -/

variable {id : Bytes32} {body : ItemBody} {chunk : List Bytes32}

/-- The chunk being filled, with an id behind what is counted in it, still begins with what
is counted. -/
theorem Lists.chunkSaved (h : Lists hash d p L) (hroom : L.length / chunkIds < 2 ^ 32 - 1)
    (hchunk : chunk.take (L.length % chunkIds) = L.drop (chunkIds * (L.length / chunkIds)))
    (hsaved : loadRow hash d' (.ids p (chunkNo L.length)) =
      some (.ids (chunk.take (L.length % chunkIds) ++ [id])))
    (hsame : ∀ name ∈ placeNames p, name ≠ .ids p (chunkNo L.length) →
      loadRow hash d' name = loadRow hash d name) : Lists hash d' p L := by
  refine ⟨?_, fun c hc => ?_, h.bound, ?_⟩
  · rw [hsame _ (Or.inl rfl) (by simp)]
    exact h.bucket
  · by_cases hlast : c = L.length / chunkIds
    · refine ⟨_, chunkLoad_eq.2 (by rw [hlast]; exact hsaved), ?_, ?_⟩
      · rw [hlast, hchunk, List.take_of_length_le]
        · exact List.prefix_append _ _
        · rw [length_tail]
          exact Nat.le_of_lt (Nat.mod_lt _ (by decide))
      · rw [List.length_append, hchunk, length_tail]
        exact Nat.mod_lt _ (by decide)
    · obtain ⟨ids, hids, hrest⟩ := h.chunks c hc
      refine ⟨ids, ?_, hrest⟩
      rw [chunkLoad_eq] at hids ⊢
      rw [hsame _ (Or.inr (Or.inr ⟨_, rfl⟩)), hids]
      intro hn
      have hcn := (RowName.ids.inj hn).2
      have := h.bound
      simp only [chunkIds] at *
      exact hlast (ofNat_chunk_inj (by omega) (by omega) hcn)
  · rw [hsame _ (Or.inr (Or.inl rfl)) (by simp)]
    exact h.here

/-- **The count behind the chunk puts the id on the list.** -/
theorem Lists.counted (h : Lists hash d p L) (hroom : L.length / chunkIds < 2 ^ 32 - 1)
    (hchunk : loadRow hash d (.ids p (chunkNo L.length)) =
      some (.ids (L.drop (chunkIds * (L.length / chunkIds)) ++ [id])))
    (hsaved : loadRow hash d' (.bucket p) = some (.bucket p (L.length + 1) (idSum L + id)))
    (hsame : ∀ name ∈ placeNames p, name ≠ .bucket p →
      loadRow hash d' name = loadRow hash d name) : Lists hash d' p (L ++ [id]) := by
  have hdiv := chunk_div_add L.length
  have hmod : L.length % chunkIds < chunkIds := Nat.mod_lt _ (by decide)
  refine ⟨Or.inl ?_, fun c hc => ?_, ?_, ?_⟩
  · rw [hsaved, List.length_append, idSum_concat]
    rfl
  · rw [List.length_append, List.length_singleton] at hc
    by_cases hlast : c = L.length / chunkIds
    · refine ⟨L.drop (chunkIds * (L.length / chunkIds)) ++ [id], chunkLoad_eq.2 ?_, ?_, ?_⟩
      · rw [hsame _ (Or.inr (Or.inr ⟨_, rfl⟩)) (by simp), hlast]
        exact hchunk
      · rw [hlast, List.drop_append_of_le_length (by omega)]
        exact List.take_prefix _ _
      · rw [List.length_append, length_tail]
        exact hmod
    · have hfull : chunkIds * c + chunkIds ≤ L.length := by
        have hlt : c < L.length / chunkIds := by
          simp only [chunkIds] at *
          omega
        have := Nat.mul_le_mul_left chunkIds hlt
        rw [Nat.mul_succ] at this
        omega
      obtain ⟨ids, hids, hrest⟩ := h.chunks c (by simp only [chunkIds] at *; omega)
      refine ⟨ids, ?_, ?_⟩
      · rw [chunkLoad_eq] at hids ⊢
        rw [hsame _ (Or.inr (Or.inr ⟨_, rfl⟩)) (by simp), hids]
      · rw [List.drop_append_of_le_length (by omega),
          List.take_append_of_le_length (by rw [List.length_drop]; omega)]
        exact hrest
  · rw [List.length_append, List.length_singleton]
    simp only [chunkIds] at *
    omega
  · rw [hsame _ (Or.inr (Or.inl rfl)) (by simp)]
    exact h.here

theorem takeMarked_disk (hash : HashOps) (p : Place) (id : Bytes32) (body : ItemBody)
    (d : BucketsDisk) : (takeMarked hash p id body d).2 =
      (saveRow hash (.item p.kind id) (.item p true body) d).2 := by
  unfold takeMarked
  split <;> next heq => rw [heq]

theorem item_notMem_placeNames (kind : Kind) (id : Bytes32) (p : Place) :
    RowName.item kind id ∉ placeNames p := by
  rintro (h | h | ⟨n, h⟩) <;> cases h

theorem sameBucket_takeMarked (hT : NamesApart hash T) (hp : placeNames p ⊆ T)
    (hitem : .item q.kind id ∈ T) : SameBucket hash p d (takeMarked hash q id body d).2 := by
  rw [takeMarked_disk]
  exact sameBucket_saveRow hT hp hitem (item_notMem_placeNames _ _ _)

/-- **The count is put behind the chunk or not at all.** -/
theorem lists_takeCount (body : ItemBody) (h : Lists hash d p L) (hT : NamesApart hash T) (hp : placeNames p ⊆ T)
    (hitem : .item p.kind id ∈ T) (hroom : L.length / chunkIds < 2 ^ 32 - 1)
    (hchunk : chunk.take (L.length % chunkIds) = L.drop (chunkIds * (L.length / chunkIds))) :
    Lists hash (takeCount hash p id body L.length (idSum L) chunk d).2 p L ∨
      Lists hash (takeCount hash p id body L.length (idSum L) chunk d).2 p (L ++ [id]) := by
  have hids : RowName.ids p (chunkNo L.length) ∈ T := hp (Or.inr (Or.inr ⟨_, rfl⟩))
  have hsave := loadRow_saveRow_self hash (.ids p (chunkNo L.length))
    (.ids (chunk.take (L.length % chunkIds) ++ [id])) d
  have hne : ∀ name ∈ placeNames p, name ≠ .ids p (chunkNo L.length) → loadRow hash
      (saveRow hash (.ids p (chunkNo L.length)) (.ids (chunk.take (L.length % chunkIds) ++ [id])) d).2
      name = loadRow hash d name :=
    fun name hname hother => loadRow_saveRow_ne hT hids (hp hname) hother
  unfold takeCount
  split
  · next d₁ heq =>
      rw [heq] at hsave hne
      rcases hsave with hsaved | ⟨-, hrows⟩
      · exact Or.inl (h.chunkSaved hroom hchunk hsaved hne)
      · exact Or.inl (h.same (sameBucket_of_rows hrows))
  next d₁ heq =>
    rw [heq] at hsave hne
    rcases hsave with hsaved | ⟨hno, -⟩
    · have hlists := h.chunkSaved hroom hchunk hsaved hne
      rw [hchunk] at hsaved
      have hsave' := loadRow_saveRow_self hash (.bucket p)
        (.bucket p (L.length + 1) (idSum L + id)) d₁
      have hne' : ∀ name ∈ placeNames p, name ≠ .bucket p → loadRow hash
          (saveRow hash (.bucket p) (.bucket p (L.length + 1) (idSum L + id)) d₁).2 name =
            loadRow hash d₁ name :=
        fun name hname hother => loadRow_saveRow_ne hT (hp (Or.inl rfl)) (hp hname) hother
      split
      · next heq' =>
          rw [heq'] at hsave' hne'
          rcases hsave' with hcount | ⟨-, hrows⟩
          · exact Or.inr (hlists.counted hroom hsaved hcount hne')
          · exact Or.inl (hlists.same (sameBucket_of_rows hrows))
      · next heq' =>
          rw [heq'] at hsave' hne'
          rcases hsave' with hcount | ⟨hno, -⟩
          · exact Or.inr ((hlists.counted hroom hsaved hcount hne').same
              (sameBucket_takeMarked hT hp hitem))
          · exact absurd hno (by simp)
    · exact absurd hno (by simp)

/-- The last id listed is where `take` looks for it. -/
theorem Lists.last (h : Lists hash d p L) (hpos : L.length ≠ 0) :
    ∃ ids, chunkLoad hash d p (chunkNo (L.length - 1)) = some ids ∧
      (L.length - 1) % chunkIds + 1 ≤ ids.length ∧
      ids[(L.length - 1) % chunkIds]? = L.getLast? ∧
      (L.length % chunkIds ≠ 0 →
        ids.take (L.length % chunkIds) = L.drop (chunkIds * (L.length / chunkIds))) := by
  have hdiv := chunk_div_add (L.length - 1)
  have hmod : (L.length - 1) % chunkIds < chunkIds := Nat.mod_lt _ (by decide)
  obtain ⟨ids, hids, hprefix, -⟩ := h.chunks ((L.length - 1) / chunkIds) (by omega)
  have hlen : ((L.drop (chunkIds * ((L.length - 1) / chunkIds))).take chunkIds).length =
      (L.length - 1) % chunkIds + 1 := by
    rw [List.length_take, List.length_drop]
    simp only [chunkIds] at *
    omega
  refine ⟨ids, hids, hlen ▸ hprefix.length_le, ?_, fun hpart => ?_⟩
  · obtain ⟨more, rfl⟩ := hprefix
    rw [List.getElem?_append_left (by omega), List.getElem?_take_of_lt hmod, List.getElem?_drop,
      hdiv, List.getLast?_eq_getElem?]
  · obtain ⟨more, rfl⟩ := hprefix
    have hsame : (L.length - 1) / chunkIds = L.length / chunkIds := by
      simp only [chunkIds] at *
      omega
    have htail := length_tail L
    have hmod' : L.length % chunkIds < chunkIds := Nat.mod_lt _ (by decide)
    have hwhole : (L.drop (chunkIds * (L.length / chunkIds))).take chunkIds =
        L.drop (chunkIds * (L.length / chunkIds)) := List.take_of_length_le (by omega)
    rw [hsame, hwhole, ← htail, List.take_left]

section

variable (body : ItemBody) (h : Lists hash d p L) (hT : NamesApart hash T) (hp : placeNames p ⊆ T)
  (hitem : .item p.kind id ∈ T)
include h hT hp hitem

theorem lists_takeIndex (hroom : L.length / chunkIds < 2 ^ 32 - 1) :
    Lists hash (takeIndex hash p id body L.length (idSum L) d).2 p L ∨
      (L.getLast? ≠ some id ∧
        Lists hash (takeIndex hash p id body L.length (idSum L) d).2 p (L ++ [id])) := by
  unfold takeIndex
  split
  · next hzero =>
      obtain rfl := List.length_eq_zero_iff.1 hzero
      have hnil : ([] : List Bytes32).take (([] : List Bytes32).length % chunkIds) =
          [].drop (chunkIds * (([] : List Bytes32).length / chunkIds)) := rfl
      rcases lists_takeCount body h hT hp hitem hroom hnil with h' | h'
      · exact Or.inl h'
      · exact Or.inr ⟨by simp, h'⟩
  · next hpos =>
      obtain ⟨ids, hids, hlen, hlast, htail⟩ := h.last hpos
      rw [hids]
      simp only [if_neg (Nat.not_lt.2 hlen)]
      split
      · exact Or.inl (h.same (sameBucket_takeMarked hT hp hitem))
      · next hne =>
          have hchunk : ids.take (L.length % chunkIds) =
              L.drop (chunkIds * (L.length / chunkIds)) := by
            by_cases hpart : L.length % chunkIds = 0
            · have hnil : (L.drop (chunkIds * (L.length / chunkIds))).length = 0 :=
                (length_tail L).trans hpart
              rw [hpart, List.take_zero, List.length_eq_zero_iff.1 hnil]
            · exact htail hpart
          rcases lists_takeCount body h hT hp hitem hroom hchunk with h' | h'
          · exact Or.inl h'
          · exact Or.inr ⟨fun heq => hne (hlast.trans heq), h'⟩

theorem lists_takeNew : Lists hash (takeNew hash p id body d).2 p L ∨
      (L.getLast? ≠ some id ∧ Lists hash (takeNew hash p id body d).2 p (L ++ [id])) := by
  unfold takeNew
  by_cases hname : rowOf hash (.bucket p) = none
  · rw [bucketLoad_eq, if_pos hname]
    exact Or.inl h
  obtain ⟨held, hheld, hrow⟩ := h.bucketLoad hname
  rw [hheld]
  simp only [hrow]
  split
  · exact Or.inl h
  next hroom =>
    have hsame : SameBucket hash p d (saveRow hash (.item p.kind id) (.item p false body) d).2 :=
      sameBucket_saveRow hT hp hitem (item_notMem_placeNames _ _ _)
    split
    · next heq =>
        rw [heq] at hsame
        exact Or.inl (h.same hsame)
    · next heq =>
        rw [heq] at hsame
        exact lists_takeIndex body (h.same hsame) hT hp hitem (Nat.not_le.1 hroom)

/-- **One call at a bucket** leaves its list, or puts behind it an id without a mark that is
not the last. -/
theorem take_lists : Lists hash (take hash p id body d).2 p L ∨
      (bucketsHas hash d p.kind id = false ∧ L.getLast? ≠ some id ∧
        Lists hash (take hash p id body d).2 p (L ++ [id])) := by
  unfold take bucketsHas
  rw [h.gone]
  simp only [Bool.false_eq_true, if_false]
  split
  · exact Or.inl (h.same (sameBucket_takeMarked hT hp hitem))
  · exact Or.inl h
  · next hletGo hheld =>
      have hmark : ((rowLoad hash d p.kind id).any fun row => row.2.1) = false := by
        rcases hrow : rowLoad hash d p.kind id with _ | ⟨place, _ | _, row⟩
        · rfl
        · rfl
        · exact (hheld place row hrow).elim
      rcases lists_takeNew body h hT hp hitem with h' | ⟨hlast, h'⟩
      · exact Or.inl h'
      · exact Or.inr ⟨hmark, hlast, h'⟩

end

/-- **One call at another bucket** leaves this one. -/
theorem take_other (hT : NamesApart hash T) (hp : placeNames p ⊆ T) (hq : placeNames q ⊆ T)
    (hitem : .item q.kind id ∈ T) (hne : q ≠ p) :
    SameBucket hash p d (take hash q id body d).2 := by
  have hsave : ∀ name row d, name ∈ placeNames q ∨ name = .item q.kind id →
      SameBucket hash p d (saveRow hash name row d).2 := by
    intro name row d hname
    have hT' : name ∈ T := by
      rcases hname with hname | rfl
      · exact hq hname
      · exact hitem
    refine sameBucket_saveRow hT hp hT' ?_
    rintro (rfl | rfl | ⟨n, rfl⟩) <;> rcases hname with (hname | hname | ⟨m, hname⟩) | hname <;>
      cases hname <;> exact hne rfl
  have hmarked : ∀ d, SameBucket hash p d (takeMarked hash q id body d).2 :=
    fun d => sameBucket_takeMarked hT hp hitem
  have hcount : ∀ count sum chunk d,
      SameBucket hash p d (takeCount hash q id body count sum chunk d).2 := by
    intro count sum chunk d
    have hids := hsave (.ids q (chunkNo count)) (.ids (chunk.take (count % chunkIds) ++ [id])) d
      (Or.inl (Or.inr (Or.inr ⟨_, rfl⟩)))
    unfold takeCount
    split
    · next heq => rwa [heq] at hids
    next d₁ heq =>
      rw [heq] at hids
      have hbucket := hsave (.bucket q) (.bucket q (count + 1) (sum + id)) d₁ (Or.inl (Or.inl rfl))
      split
      · next heq' =>
          rw [heq'] at hbucket
          exact hids.trans hbucket
      · next heq' =>
          rw [heq'] at hbucket
          exact (hids.trans hbucket).trans (hmarked _)
  have hrefl : ∀ d, SameBucket hash p d d := fun _ _ _ => rfl
  have hindex : ∀ count sum d, SameBucket hash p d (takeIndex hash q id body count sum d).2 := by
    intro count sum d
    unfold takeIndex
    split
    · exact hcount _ _ _ _
    split
    · exact hrefl d
    split
    · exact hrefl d
    split
    · exact hmarked d
    · exact hcount _ _ _ _
  unfold take
  split
  · exact hrefl d
  split
  · exact hmarked d
  · exact hrefl d
  unfold takeNew
  split
  · exact hrefl d
  split
  · exact hrefl d
  have hitem' := hsave (.item q.kind id) (.item q false body) d (Or.inr rfl)
  split
  · next heq => rwa [heq] at hitem'
  · next heq =>
      rw [heq] at hitem'
      exact hitem'.trans (hindex _ _ _)

/-! ## Pages -/

/-- What a turn reads is the list's, from the position on. -/
theorem Lists.turn (h : Lists hash d p L) {pos : ℕ} (hpos : pos < L.length) :
    ∃ chunk, chunkLoad hash d p (chunkNo pos) = some chunk ∧
      (∀ room, idsTurn L.length pos room chunk =
        (L.drop pos).take (min (chunkIds - pos % chunkIds) room)) ∧
      chunkIds * (pos / chunkIds) + min chunkIds (L.length - chunkIds * (pos / chunkIds)) ≤
        chunkIds * (pos / chunkIds) + chunk.length := by
  have hdiv := chunk_div_add pos
  have hmod : pos % chunkIds < chunkIds := Nat.mod_lt _ (by decide)
  obtain ⟨chunk, hchunk, hprefix, hlen⟩ := h.chunks (pos / chunkIds) (by omega)
  have hcounted := hprefix.length_le
  rw [List.length_take, List.length_drop] at hcounted
  refine ⟨chunk, hchunk, fun room => ?_, by omega⟩
  obtain ⟨more, rfl⟩ := hprefix
  unfold idsTurn
  rw [List.length_append, List.length_take, List.length_drop] at hlen
  have hskip : pos % chunkIds ≤ ((L.drop (chunkIds * (pos / chunkIds))).take chunkIds).length := by
    rw [List.length_take, List.length_drop]
    omega
  have hdrop : ((L.drop (chunkIds * (pos / chunkIds))).take chunkIds ++ more).drop (pos % chunkIds) =
      (L.drop pos).take (chunkIds - pos % chunkIds) ++ more := by
    rw [List.drop_append_of_le_length hskip, List.drop_take, List.drop_drop, hdiv]
  rw [hdrop]
  have hread : ((L.drop pos).take (chunkIds - pos % chunkIds) ++ more).take (L.length - pos) =
      (L.drop pos).take (chunkIds - pos % chunkIds) := by
    have hcut : ((L.drop pos).take (chunkIds - pos % chunkIds)).length =
        min (chunkIds - pos % chunkIds) (L.length - pos) := by
      rw [List.length_take, List.length_drop]
    by_cases hlast : L.length - pos ≤ chunkIds - pos % chunkIds
    · rw [List.take_append_of_le_length (by omega), List.take_of_length_le (by omega)]
    · -- the chunk is full, so nothing stands behind what is counted
      have hnil : more.length = 0 := by omega
      rw [List.length_eq_zero_iff.1 hnil, List.append_nil, List.take_of_length_le (by omega)]
  rw [hread, List.take_take, Nat.min_comm]

/-- What is taken and then what there is room for behind it. -/
theorem take_append_rest {k room : ℕ} (h : k ≤ room) :
    L.take k ++ (L.drop (L.take k).length).take (room - (L.take k).length) = L.take room := by
  rw [List.length_take]
  by_cases hk : k ≤ L.length
  · rw [Nat.min_eq_left hk, ← List.take_add, Nat.add_sub_cancel' h]
  · rw [Nat.min_eq_right (by omega), List.drop_length, List.take_nil, List.append_nil,
      List.take_of_length_le (by omega), List.take_of_length_le (by omega)]

/-- **The loop reads the list** from a position, as far as there is room. -/
theorem Lists.idsLoop (h : Lists hash d p L) {fuel pos room : ℕ} (hfuel : L.length - pos ≤ fuel) :
    idsLoop hash d p L.length fuel pos room = some ((L.drop pos).take room) := by
  induction fuel generalizing pos room with
  | zero =>
    rw [Node.idsLoop, List.drop_of_length_le (by omega), List.take_nil]
  | succ fuel ih =>
    unfold Node.idsLoop
    split
    · next hend =>
        rcases hend with hend | rfl
        · rw [List.drop_of_length_le hend, List.take_nil]
        · rw [List.take_zero]
    · next hgoing =>
        obtain ⟨hpos, hroom⟩ := not_or.1 hgoing
        have hlt : pos < L.length := Nat.not_le.1 hpos
        obtain ⟨chunk, hchunk, hturn, hfull⟩ := h.turn hlt
        have hdiv := chunk_div_add pos
        have hmod : pos % chunkIds < chunkIds := Nat.mod_lt _ (by decide)
        have hread : (idsTurn L.length pos room chunk).length =
            min (min (chunkIds - pos % chunkIds) room) (L.length - pos) := by
          rw [hturn, List.length_take, List.length_drop]
        rw [hchunk]
        simp only
        rw [if_neg (by omega), ih (by omega), ← List.drop_drop, hturn, Option.map_some,
          take_append_rest (Nat.min_le_right _ _)]

/-- **A page is a part of the list**, and the total its length. -/
theorem Lists.bucketsIds (h : Lists hash d p L) (hname : rowOf hash (.bucket p) ≠ none)
    (start max : ℕ) :
    bucketsIds hash d p start max = .ok ((L.drop start).take max, L.length) := by
  unfold Node.bucketsIds
  rw [bucketLoad_eq, if_neg hname]
  rcases h.bucket with hrow | ⟨rfl, hrow⟩
  · rw [hrow]
    simp only [if_true, h.gone, Bool.false_eq_true, if_false, h.idsLoop (Nat.le_refl _)]
  · rw [hrow]
    simp

/-- What pages of `max` ids read one after the other, from a position, until one is empty. -/
def idsPages (hash : HashOps) (d : BucketsDisk) (p : Place) (max : ℕ) : ℕ → ℕ → List Bytes32
  | 0, _ => []
  | fuel + 1, start =>
    match Node.bucketsIds hash d p start max with
    | .error _ => []
    | .ok (ids, _) => if ids = [] then [] else ids ++ idsPages hash d p max fuel (start + ids.length)

theorem Lists.idsPages (h : Lists hash d p L) (hname : rowOf hash (.bucket p) ≠ none)
    {max fuel start : ℕ} (hmax : 0 < max) (hfuel : L.length - start < fuel) :
    idsPages hash d p max fuel start = L.drop start := by
  induction fuel generalizing start with
  | zero => exact absurd hfuel (Nat.not_lt_zero _)
  | succ fuel ih =>
    unfold Node.idsPages
    rw [h.bucketsIds hname]
    simp only
    split
    · next hnil =>
        rw [List.take_eq_nil_iff] at hnil
        rcases hnil with rfl | hnil
        · exact absurd hmax (Nat.lt_irrefl 0)
        · exact hnil.symm
    · next hsome =>
        have hlen : 0 < ((L.drop start).take max).length := List.length_pos_iff.2 hsome
        have hcut := hlen
        rw [List.length_take, List.length_drop] at hcut
        rw [ih (by rw [List.length_take, List.length_drop]; omega), ← List.drop_drop]
        exact List.prefix_iff_eq_append.1 (List.take_prefix _ _)

end Lists

/-! ## Runs -/

/-- A call of `fzn_buckets_add` or `fzn_buckets_add_ref`. -/
inductive BucketsOp
  | add (place : Place) (item : Bytes)
  | addRef (place : Place) (id : Bytes32) (size : ℕ) (ref : Bytes)

/-- The bucket a call is for. -/
def BucketsOp.place : BucketsOp → Place
  | .add p _ => p
  | .addRef p _ _ _ => p

/-- The id a call is for. -/
def BucketsOp.id (hash : HashOps) : BucketsOp → Option Bytes32
  | .add _ item => hash.hash item
  | .addRef _ id _ _ => some id

/-- The rows a call reads and writes. -/
def BucketsOp.names (hash : HashOps) : BucketsOp → Set RowName
  | .add p item => {name | name ∈ placeNames p ∨ ∃ id, hash.hash item = some id ∧
      name = .item p.kind id}
  | .addRef p id _ ref => {name | name ∈ placeNames p ∨ name = .item p.kind id ∨
      ∃ key, hash.hash ref = some key ∧ name = .byref p.kind key}

/-- One call. -/
def bucketsStep (hash : HashOps) (d : BucketsDisk) : BucketsOp → BucketsDisk
  | .add p item => (bucketsAdd hash p item d).2
  | .addRef p id size ref => (bucketsAddRef hash p id size ref d).2

/-- Calls one after another from an empty disk, whose saves end as `outcomes` say: a call
that is stopped at a save is one whose save is refused, or is done and not answered. -/
def bucketsRun (hash : HashOps) (outcomes : List Outcome) (ops : List BucketsOp) : BucketsDisk :=
  ops.foldl (bucketsStep hash) ⟨∅, outcomes⟩

section Step

variable {hash : HashOps} {T : Set RowName} {d : BucketsDisk} {p : Place} {L : List Bytes32}

/-- A call at a bucket, up to its list. -/
def Appends (hash : HashOps) (d d' : BucketsDisk) (p : Place) (L : List Bytes32) (op : BucketsOp) :
    Prop :=
  Lists hash d' p L ∨ ∃ id, op.place = p ∧ op.id hash = some id ∧ bucketsHas hash d p.kind id = false ∧
    L.getLast? ≠ some id ∧ Lists hash d' p (L ++ [id])

/-- **One call** leaves a bucket's list or puts its id behind it. -/
theorem step_lists (h : Lists hash d p L) (op : BucketsOp) (hT : NamesApart hash T)
    (hp : placeNames p ⊆ T) (hop : op.names hash ⊆ T) :
    Appends hash d (bucketsStep hash d op) p L op := by
  have htake : ∀ q id body, op.place = q → op.id hash = some id → placeNames q ⊆ T →
      .item q.kind id ∈ T → Appends hash d (take hash q id body d).2 p L op := by
    intro q id body hplace hid hq hitem
    by_cases hqp : q = p
    · obtain rfl := hqp
      rcases take_lists body h hT hp hitem with h' | ⟨hmark, hlast, h'⟩
      · exact Or.inl h'
      · exact Or.inr ⟨id, hplace, hid, hmark, hlast, h'⟩
    · exact Or.inl (h.same (take_other hT hp hq hitem hqp))
  cases op with
  | add q item =>
    show Appends hash d (bucketsAdd hash q item d).2 p L _
    unfold bucketsAdd
    split
    · exact Or.inl h
    split
    · exact Or.inl h
    · next id hid =>
        exact htake q id _ rfl hid (fun name hname => hop (Or.inl hname))
          (hop (Or.inr ⟨id, hid, rfl⟩))
  | addRef q id size ref =>
    have htaken := htake q id (.ref size ref) rfl rfl (fun name hname => hop (Or.inl hname))
      (hop (Or.inr (Or.inl rfl)))
    show Appends hash d (bucketsAddRef hash q id size ref d).2 p L _
    unfold bucketsAddRef
    split
    · exact Or.inl h
    split
    · next d₁ heq =>
        rw [heq] at htaken
        split
        · exact htaken
        · next key hkey =>
            have hsame : SameBucket hash p d₁
                (saveRow hash (.byref q.kind key) (.byref q.kind id size) d₁).2 := by
              refine sameBucket_saveRow hT hp (hop (Or.inr (Or.inr ⟨key, hkey, rfl⟩))) ?_
              rintro (h | h | ⟨n, h⟩) <;> cases h
            have hafter : Appends hash d
                (saveRow hash (.byref q.kind key) (.byref q.kind id size) d₁).2 p L
                (.addRef q id size ref) := by
              rcases htaken with h' | ⟨id', hplace, hid, hmark, hlast, h'⟩
              · exact Or.inl (h'.same hsame)
              · exact Or.inr ⟨id', hplace, hid, hmark, hlast, h'.same hsame⟩
            split <;> next heq' => rwa [heq'] at hafter
    · exact htaken

/-- What a bucket lists, as `fzn_buckets_ids` reads it. -/
def listedIds (hash : HashOps) (d : BucketsDisk) (p : Place) : List Bytes32 :=
  match bucketsIds hash d p 0 (chunkIds * 2 ^ 32) with
  | .error _ => []
  | .ok (ids, _) => ids

/-- **A call for an id without a mark** finds it nowhere in its bucket, or last. -/
def Clear (hash : HashOps) (d : BucketsDisk) (op : BucketsOp) : Prop :=
  ∀ id, op.id hash = some id → bucketsHas hash d op.place.kind id = true ∨
    id ∉ listedIds hash d op.place ∨ (listedIds hash d op.place).getLast? = some id

theorem Lists.listedIds (h : Lists hash d p L) : listedIds hash d p = L := by
  unfold Node.listedIds
  by_cases hname : rowOf hash (.bucket p) = none
  · -- a bucket whose row has no name has no row
    unfold Node.bucketsIds
    rw [bucketLoad_eq, if_pos hname]
    rcases h.bucket with hrow | ⟨rfl, -⟩
    · unfold loadRow at hrow
      rw [hname] at hrow
      cases hrow
    · rfl
  · rw [h.bucketsIds hname]
    have := h.bound
    simp only [List.drop_zero]
    rw [List.take_of_length_le]
    simp only [chunkIds] at *
    omega

/-- **A call that is clear lists no id twice.** -/
theorem nodup_step {d' : BucketsDisk} {op : BucketsOp} (h : Lists hash d p L) (hnodup : L.Nodup)
    (hclear : Clear hash d op) (hstep : Appends hash d d' p L op) :
    ∃ L', Lists hash d' p L' ∧ L'.Nodup := by
  rcases hstep with h' | ⟨id, rfl, hid, hmark, hlast, h'⟩
  · exact ⟨L, h', hnodup⟩
  · refine ⟨L ++ [id], h', ?_⟩
    have hout : id ∉ L := by
      have hlisted := hclear id hid
      rw [h.listedIds, hmark] at hlisted
      rcases hlisted with hfalse | hout | hlast'
      · exact absurd hfalse (by simp)
      · exact hout
      · exact absurd hlast' hlast
    exact hnodup.append (List.nodup_singleton id) (List.disjoint_singleton.2 hout)

end Step

section Run

variable {hash : HashOps} {T : Set RowName} {p : Place}

/-- The rows of a run's calls, and of one bucket. -/
def runNames (hash : HashOps) (ops : List BucketsOp) (p : Place) : Set RowName :=
  {name | name ∈ placeNames p ∨ ∃ op ∈ ops, name ∈ op.names hash}

theorem lists_empty (hash : HashOps) (outcomes : List Outcome) (p : Place) :
    Lists hash ⟨∅, outcomes⟩ p [] := by
  have hnone : ∀ name, loadRow hash ⟨∅, outcomes⟩ name = none := by
    intro name
    unfold loadRow
    cases rowOf hash name <;> rfl
  refine ⟨Or.inr ⟨rfl, hnone _⟩, fun c hc => ?_, Nat.zero_le _, hnone _⟩
  exact absurd hc (Nat.not_lt_zero _)

/-- **What a bucket lists after a run of clear calls has no id twice.** -/
theorem lists_run {outcomes : List Outcome} {ops : List BucketsOp}
    (hT : NamesApart hash (runNames hash ops p))
    (hclear : ∀ pre op, pre ++ [op] <+: ops → Clear hash (bucketsRun hash outcomes pre) op) :
    ∃ L, Lists hash (bucketsRun hash outcomes ops) p L ∧ L.Nodup := by
  refine prefix_induction
    (P := fun pre => ∃ L, Lists hash (bucketsRun hash outcomes pre) p L ∧ L.Nodup) ?_ ?_
  · exact ⟨[], lists_empty hash outcomes p, List.nodup_nil⟩
  · rintro pre op hle ⟨L, hlists, hnodup⟩
    have hstep := step_lists hlists op hT (fun name hname => Or.inl hname)
      fun name hname => Or.inr ⟨op, hle.subset (by simp), hname⟩
    have hrun : bucketsRun hash outcomes (pre ++ [op]) =
        bucketsStep hash (bucketsRun hash outcomes pre) op := by
      unfold bucketsRun
      rw [List.foldl_append, List.foldl_cons, List.foldl_nil]
    rw [hrun]
    exact nodup_step hlists hnodup (hclear pre op hle) hstep

/-- **A bucket counts every id once.**  Its ids are distinct, the view of it is of their
number and their sum, and the pages are the list, from any position and in any size. -/
structure CountsOnce (hash : HashOps) (d : BucketsDisk) (p : Place) (L : List Bytes32) : Prop where
  nodup : L.Nodup
  view : bucketsBucket hash d p = filled (fill hash p L.length (idSum L))
  page : ∀ start max, bucketsIds hash d p start max = .ok ((L.drop start).take max, L.length)
  pages : ∀ max, 0 < max → idsPages hash d p max (L.length + 1) 0 = L

theorem Lists.countsOnce {d : BucketsDisk} {L : List Bytes32} (h : Lists hash d p L)
    (hnodup : L.Nodup) (hname : rowOf hash (.bucket p) ≠ none) : CountsOnce hash d p L := by
  refine ⟨hnodup, ?_, h.bucketsIds hname, fun max hmax => ?_⟩
  · obtain ⟨held, hheld, hrow⟩ := h.bucketLoad hname
    unfold bucketsBucket
    rw [hheld]
    simp only [hrow]
  · exact h.idsPages hname hmax (by omega)

/-- One set of ids has one sum. -/
theorem idSum_perm {L L' : List Bytes32} (h : L.Perm L') : idSum L = idSum L' := by
  induction h with
  | nil => rfl
  | cons id _ ih =>
    show id + idSum _ = id + idSum _
    rw [ih]
  | swap a b L =>
    show b + (a + idSum L) = a + (b + idSum L)
    rw [← BitVec.add_assoc, ← BitVec.add_assoc, BitVec.add_comm b a]
  | trans _ _ ih ih' => exact ih.trans ih'

/-- **Two nodes that hold the same ids show the same count and digest.** -/
theorem CountsOnce.same {d d' : BucketsDisk} {L L' : List Bytes32} (h : CountsOnce hash d p L)
    (h' : CountsOnce hash d' p L') (hsame : ∀ id, id ∈ L ↔ id ∈ L') :
    bucketsBucket hash d p = bucketsBucket hash d' p := by
  have hperm : L.Perm L' := (List.perm_ext_iff_of_nodup h.nodup h'.nodup).2 hsame
  rw [h.view, h'.view, hperm.length_eq, idSum_perm hperm]

/-- **Buckets count every item exactly once**, through any failure of a save and any stop at
one, in every state of a run none of whose calls is for an id without a mark listed anywhere
but last; and two nodes whose buckets then hold the same ids show the same bucket. -/
theorem buckets_count_once {outcomes outcomes' : List Outcome} {ops ops' : List BucketsOp}
    (hname : rowOf hash (.bucket p) ≠ none) (hT : NamesApart hash (runNames hash ops p))
    (hT' : NamesApart hash (runNames hash ops' p))
    (hclear : ∀ pre op, pre ++ [op] <+: ops → Clear hash (bucketsRun hash outcomes pre) op)
    (hclear' : ∀ pre op, pre ++ [op] <+: ops' → Clear hash (bucketsRun hash outcomes' pre) op) :
    ∃ L L', CountsOnce hash (bucketsRun hash outcomes ops) p L ∧
      CountsOnce hash (bucketsRun hash outcomes' ops') p L' ∧
      ((∀ id, id ∈ L ↔ id ∈ L') →
        bucketsBucket hash (bucketsRun hash outcomes ops) p =
          bucketsBucket hash (bucketsRun hash outcomes' ops') p) := by
  obtain ⟨L, hlists, hnodup⟩ := lists_run hT hclear
  obtain ⟨L', hlists', hnodup'⟩ := lists_run hT' hclear'
  have h := hlists.countsOnce hnodup hname
  have h' := hlists'.countsOnce hnodup' hname
  exact ⟨L, L', h, h', h.same h'⟩

end Run

/-! ## Two items of one bucket -/

/-- A hash of a few inputs, which refuses every other. -/
def tableHash (table : List (Bytes × Bytes32)) : HashOps :=
  ⟨fun x => (table.find? fun row => row.1 == x).map Prod.snd⟩

theorem tableHash_injOn {table : List (Bytes × Bytes32)} (h : (table.map Prod.snd).Nodup)
    (T : Set Bytes) : (tableHash table).InjOn T := by
  intro x _ y _ id hx hy
  obtain ⟨row, hrow, rfl⟩ := Option.map_eq_some_iff.1 hx
  obtain ⟨row', hrow', heq⟩ := Option.map_eq_some_iff.1 hy
  have hsame : row' = row := List.inj_on_of_nodup_map h (List.mem_of_find?_eq_some hrow')
    (List.mem_of_find?_eq_some hrow) heq
  have hfound := List.find?_some hrow
  have hfound' := List.find?_some hrow'
  simp only [beq_iff_eq] at hfound hfound'
  rw [← hfound, ← hfound', hsame]

/-- A bucket, and the hash of its rows and of two items of it. -/
def onePlace : Place := ⟨.messages, 7, 1⟩

def twoItems : HashOps := tableHash
  [([1], 11), ([2], 12), ((RowName.bucket onePlace).input, 1),
    ((RowName.ids onePlace 0).input, 2), ((RowName.item .messages 11).input, 3),
    ((RowName.item .messages 12).input, 4), (digestInput onePlace 2 23, 5)]

/-- The first call's saves up to its mark are done, and the mark is refused. -/
def stoppedAtMark : List Outcome := [.done, .done, .done, .refused]

/-- The first item, the second, and the first again. -/
def firstAgain : List BucketsOp := [.add onePlace [1], .add onePlace [2], .add onePlace [1]]

/-- **Counted twice:** the first call stops at its mark, behind the count; another item is
counted; and the first call, made again, counts its item again. -/
theorem counted_twice :
    NamesApart twoItems (runNames twoItems firstAgain onePlace) ∧
      listedIds twoItems (bucketsRun twoItems stoppedAtMark firstAgain) onePlace =
        [11, 12, 11] ∧
      ¬ (listedIds twoItems (bucketsRun twoItems stoppedAtMark firstAgain)
        onePlace).Nodup := by
  have hlisted : listedIds twoItems (bucketsRun twoItems stoppedAtMark firstAgain)
      onePlace = [11, 12, 11] := by decide
  refine ⟨tableHash_injOn (by decide) _, hlisted, ?_⟩
  rw [hlisted]
  decide

/-- The same calls, the first stopped and made again before the second. -/
def firstResumed : List BucketsOp := [.add onePlace [1], .add onePlace [1], .add onePlace [2]]

theorem buckets_count_once_resumed :
    ∃ L L', CountsOnce twoItems
        (bucketsRun twoItems stoppedAtMark firstResumed) onePlace L ∧
      CountsOnce twoItems (bucketsRun twoItems [] firstAgain) onePlace L' ∧
      ((∀ id, id ∈ L ↔ id ∈ L') →
        bucketsBucket twoItems
            (bucketsRun twoItems stoppedAtMark firstResumed) onePlace =
          bucketsBucket twoItems (bucketsRun twoItems [] firstAgain) onePlace) := by
  have hapart : ∀ T, NamesApart twoItems T := fun T => tableHash_injOn (by decide) _
  have hfirst : (BucketsOp.add onePlace [1]).id twoItems = some 11 := by decide
  have hsecond : (BucketsOp.add onePlace [2]).id twoItems = some 12 := by decide
  refine buckets_count_once (by decide) (hapart _) (hapart _) ?_ ?_
  · refine forall_prefix fun n hn id hid => ?_
    obtain rfl | rfl | rfl : n = 0 ∨ n = 1 ∨ n = 2 := by
      have : n < 3 := hn
      omega
    · obtain rfl := Option.some.inj (hfirst.symm.trans hid)
      have hout : 11 ∉ listedIds twoItems (bucketsRun twoItems stoppedAtMark []) onePlace := by
        decide
      exact Or.inr (Or.inl hout)
    · obtain rfl := Option.some.inj (hfirst.symm.trans hid)
      have hlast : (listedIds twoItems (bucketsRun twoItems stoppedAtMark [.add onePlace [1]])
          onePlace).getLast? = some 11 := by decide
      exact Or.inr (Or.inr hlast)
    · obtain rfl := Option.some.inj (hsecond.symm.trans hid)
      have hout : 12 ∉ listedIds twoItems (bucketsRun twoItems stoppedAtMark
          [.add onePlace [1], .add onePlace [1]]) onePlace := by decide
      exact Or.inr (Or.inl hout)
  · refine forall_prefix fun n hn id hid => ?_
    obtain rfl | rfl | rfl : n = 0 ∨ n = 1 ∨ n = 2 := by
      have : n < 3 := hn
      omega
    · obtain rfl := Option.some.inj (hfirst.symm.trans hid)
      have hout : 11 ∉ listedIds twoItems (bucketsRun twoItems [] []) onePlace := by
        decide
      exact Or.inr (Or.inl hout)
    · obtain rfl := Option.some.inj (hsecond.symm.trans hid)
      have hout : 12 ∉ listedIds twoItems (bucketsRun twoItems [] [.add onePlace [1]]) onePlace := by
        decide
      exact Or.inr (Or.inl hout)
    · obtain rfl := Option.some.inj (hfirst.symm.trans hid)
      have hmark : bucketsHas twoItems (bucketsRun twoItems []
          [.add onePlace [1], .add onePlace [2]]) .messages 11 = true := by decide
      exact Or.inl hmark

end Node
end Fuzznet
