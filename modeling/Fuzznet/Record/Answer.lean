/-
# What a peer is answered

`record/exchange.c`, the server: `fzn_exchange_answer` reads a query and answers out of the
journal and the store, changing neither.  A DIGEST page is as many positions as the reply
has room for, from the position asked on; RECORDS is the records of one stream from a
sequence on, until one is not received, not held, does not fit, or enough are there.

| off | DIGEST | RECORDS |
| ---: | --- | --- |
| 2 | how many positions there are | how many records follow |
| 4 | where the page starts | length and bytes of each |
| 6 | how many positions follow | |
| 8 | issuer, stream and received of each | |

What is written is what the client reads: position `i` of a page is the journal's
(`positionAt_digestPage`), and where a record is, its length and its bytes stand
(`recordBytes_at`).
-/

import Fuzznet.Record.Exchange
import Fuzznet.Session.Derive

namespace Fuzznet
namespace Record

open Wire Lib
open Session (bytes32)

/-- `fzn_sync_digest`, without the count of what it drops. -/
def syncDigest (j : Journal) (outCap : ℕ) : List SyncPosition :=
  if journalUsable j = false then []
  else (j.entries.take outCap).map fun e => ⟨e.key, e.received⟩

/-- A position on the wire. -/
def positionBytes (t : SyncPosition) : Bytes :=
  bytes32 t.key.issuer ++ putBe 4 t.key.stream.toNat ++ putBe 8 t.received.toNat

/-- A DIGEST page: `page` of `total` positions, from the one at `start`. -/
def digestPage (total start : ℕ) (page : List SyncPosition) : Bytes :=
  [5, 2] ++ putBe 2 total ++ putBe 2 start ++ putBe 2 page.length ++ page.flatMap positionBytes

/-- Where the page asked for starts. -/
def digestStart (request : Bytes) (held : List SyncPosition) : ℕ :=
  min (getBe request 2 2) held.length

/-- `answer_digest`. -/
def answerDigest (j : Journal) (request : Bytes) (cap : ℕ) : Bytes :=
  if request.length ≠ 4 ∨ cap < 8 then []
  else digestPage (syncDigest j syncMaxPositions).length
    (digestStart request (syncDigest j syncMaxPositions))
    (((syncDigest j syncMaxPositions).drop
      (digestStart request (syncDigest j syncMaxPositions))).take ((cap - 8) / 44))

/-- A record on the wire, behind its length. -/
def recordBytes (r : RecordView) : Bytes := putBe 2 r.bytes.length ++ r.bytes

/-- RECORDS. -/
def recordsReply (recs : List RecordView) : Bytes :=
  [5, 4] ++ putBe 2 recs.length ++ recs.flatMap recordBytes

section Answer

variable {S : Type} (ops : StoreOps S)

/-- The loop of `answer_records`: at most `n` records of `k` from `seq` to `last`, the first
written at `off` of a reply of `cap` bytes. -/
def recordsFrom (st : S) (k : StreamKey) (last : UInt64) (cap : ℕ) :
    ℕ → UInt64 → ℕ → List RecordView
  | 0, _, _ => []
  | n + 1, seq, off =>
    if seq ≤ last then
      match recordStoreGet ops st ⟨k, seq⟩ with
      | .error _ => []
      | .ok r =>
        if cap - off < 2 + r.bytes.length then []
        else r :: recordsFrom st k last cap n (seq + 1) (off + (2 + r.bytes.length))
    else []

/-- The stream a RECORDS query asks about. -/
def queryKey (request : Bytes) : StreamKey :=
  ⟨BitVec.ofNat 256 (getBe request 2 32), UInt32.ofNat (getBe request 34 4)⟩

/-- `answer_records`. -/
def answerRecords (j : Journal) (st : S) (request : Bytes) (cap : ℕ) : Bytes :=
  if request.length ≠ 48 ∨ cap < 4 then []
  else if getBe request 38 8 = 0 ∨ getBe request 46 2 = 0 then []
  else recordsReply (recordsFrom ops st (queryKey request)
    (journalNext j (queryKey request) - 1) cap (min (getBe request 46 2) 0xffff)
    (UInt64.ofNat (getBe request 38 8)) 4)

/-- `fzn_exchange_answer`. -/
def exchangeAnswer (j : Journal) (st : S) (request : Bytes) (cap : ℕ) : Bytes :=
  if isMessage request 1 then answerDigest j request cap
  else if isMessage request 3 then answerRecords ops j st request cap
  else []

end Answer

/-! ## The pages -/

theorem length_positionBytes (t : SyncPosition) : (positionBytes t).length = 44 := by
  simp [positionBytes]

theorem length_flatMap_positionBytes (page : List SyncPosition) :
    (page.flatMap positionBytes).length = 44 * page.length := by
  induction page with
  | nil => rfl
  | cons t page ih =>
    rw [List.flatMap_cons, List.length_append, length_positionBytes, ih, List.length_cons]
    omega

/-- Items of one width: item `i` starts `i` widths in. -/
theorem drop_flatMap_positionBytes (page : List SyncPosition) (i : ℕ) :
    (page.flatMap positionBytes).drop (i * 44) = (page.drop i).flatMap positionBytes := by
  induction i generalizing page with
  | zero => simp
  | succ i ih =>
    cases page with
    | nil => simp
    | cons t page =>
      have hstep : (i + 1) * 44 = (positionBytes t).length + i * 44 := by
        rw [length_positionBytes]
        omega
      rw [List.flatMap_cons, hstep, ← List.drop_drop, List.drop_left, ih, List.drop_succ_cons]

/-- The head of a page. -/
theorem digestPage_head {total start : ℕ} {page : List SyncPosition} (htotal : total < 65536)
    (hstart : start < 65536) (hpage : page.length < 65536) :
    isMessage (digestPage total start page) 2 = true ∧
      (digestPage total start page).length = 8 + page.length * 44 ∧
      getBe (digestPage total start page) 2 2 = total ∧
      getBe (digestPage total start page) 4 2 = start ∧
      getBe (digestPage total start page) 6 2 = page.length := by
  have hform : digestPage total start page = 5 :: 2 :: (putBe 2 total ++ (putBe 2 start ++
      (putBe 2 page.length ++ page.flatMap positionBytes))) := by
    simp [digestPage]
  have hlen : (digestPage total start page).length = 8 + page.length * 44 := by
    rw [hform]
    simp only [List.length_cons, List.length_append, length_putBe, length_flatMap_positionBytes]
    omega
  have htotal' : total < 256 ^ 2 := htotal
  have hstart' : start < 256 ^ 2 := hstart
  have hpage' : page.length < 256 ^ 2 := hpage
  refine ⟨?_, hlen, ?_, ?_, ?_⟩
  · have hversion : getBe (digestPage total start page) 0 1 = 5 := by
      rw [hform]
      exact getBe_byte 5 _
    have htype : getBe (digestPage total start page) 1 1 = 2 := by
      rw [hform, getBe_cons (by omega)]
      exact getBe_byte 2 _
    exact decide_eq_true ⟨by omega, hversion, htype⟩
  · rw [hform]
    simp (disch := omega) only [getBe_cons, Nat.reduceSub, getBe_putBe_of_lt]
  · rw [hform]
    simp (disch := omega) only [getBe_cons, getBe_skip, Nat.reduceSub, getBe_putBe_of_lt]
  · rw [hform]
    simp (disch := omega) only [getBe_cons, getBe_skip, Nat.reduceSub, getBe_putBe_of_lt]

theorem getBe_drop (bs : Bytes) (a b n : ℕ) : getBe bs (a + b) n = getBe (bs.drop a) b n := by
  unfold getBe
  rw [List.drop_drop]

/-- **A position of a page is read back.** -/
theorem positionAt_digestPage (total start : ℕ) {page : List SyncPosition} {i : ℕ}
    {t : SyncPosition} (hi : page[i]? = some t) :
    positionAt (digestPage total start page) i = t := by
  have hlt := (List.getElem?_eq_some_iff.1 hi).1
  have hget := (List.getElem?_eq_some_iff.1 hi).2
  have hbody : (digestPage total start page).drop 8 = page.flatMap positionBytes := by
    unfold digestPage
    exact List.drop_left' (by simp)
  have hat : (digestPage total start page).drop (8 + i * 44) =
      positionBytes t ++ (page.drop (i + 1)).flatMap positionBytes := by
    rw [← List.drop_drop, hbody, drop_flatMap_positionBytes, List.drop_eq_getElem_cons hlt, hget,
      List.flatMap_cons]
  have hstream : t.key.stream.toNat < 256 ^ 4 := t.key.stream.toNat_lt
  have hreceived := toNat_lt_be64 t.received
  have hissuer := toNat_lt_bytes t.key.issuer
  unfold positionAt
  rw [Nat.add_assoc, Nat.add_assoc, ← Nat.add_assoc 8, ← Nat.add_assoc 8, getBe_drop _ _ 32,
    getBe_drop _ _ 36, ← Nat.add_zero (8 + i * 44), getBe_drop _ _ 0, Nat.add_zero, hat]
  simp only [positionBytes, bytes32, List.append_assoc]
  simp (disch := omega) only [getBe_skip, Nat.reduceSub, getBe_putBe_of_lt, BitVec.ofNat_toNat,
    BitVec.setWidth_eq, UInt64.ofNat_toNat, UInt32.ofNat_toNat]

/-- **A page is read back whole.** -/
theorem range_map_positionAt (total start : ℕ) (page : List SyncPosition) :
    (List.range page.length).map (positionAt (digestPage total start page)) = page := by
  refine List.ext_getElem? fun i => ?_
  by_cases hi : i < page.length
  · rw [List.getElem?_map, List.getElem?_range hi, List.getElem?_eq_getElem hi]
    exact congrArg some (positionAt_digestPage total start (List.getElem?_eq_getElem hi))
  · rw [List.getElem?_eq_none (by simpa using hi), List.getElem?_eq_none (by omega)]

/-! ## The records -/

theorem length_recordBytes (r : RecordView) : (recordBytes r).length = 2 + r.bytes.length := by
  simp [recordBytes]

/-- Where a record stands in a reply, its length and its bytes are read. -/
theorem recordBytes_at {reply rest : Bytes} {off : ℕ} {r : RecordView}
    (h : reply.drop off = recordBytes r ++ rest) :
    ¬ reply.length - off < 2 ∧ ¬ reply.length - off - 2 < getBe reply off 2 ∧
      getBe reply off 2 = r.bytes.length ∧
      load reply (off + 2) r.bytes.length = r.bytes ∧
      reply.drop (off + 2 + r.bytes.length) = rest := by
  have hsmall := length_of_open r
  have hlen := congrArg List.length h
  rw [List.length_drop, List.length_append, length_recordBytes] at hlen
  have hfield : getBe reply off 2 = r.bytes.length := by
    rw [← Nat.add_zero off, getBe_drop, h, recordBytes, List.append_assoc]
    exact getBe_putBe_of_lt _ (by norm_num; omega)
  refine ⟨by omega, by omega, hfield, ?_, ?_⟩
  · rw [load, ← List.drop_drop, h, recordBytes, List.append_assoc,
      List.drop_left' (length_putBe 2 _), List.take_left]
  · rw [← List.drop_drop, ← List.drop_drop, h, List.drop_drop, ← length_recordBytes r,
      List.drop_left]

/-- The head of a RECORDS reply. -/
theorem recordsReply_head {recs : List RecordView} (hrecs : recs.length < 65536) :
    isMessage (recordsReply recs) 4 = true ∧ ¬ (recordsReply recs).length < 4 ∧
      getBe (recordsReply recs) 2 2 = recs.length ∧
      (recordsReply recs).drop 4 = recs.flatMap recordBytes := by
  have hform : recordsReply recs =
      5 :: 4 :: (putBe 2 recs.length ++ recs.flatMap recordBytes) := by
    simp [recordsReply]
  have hlen : 4 ≤ (recordsReply recs).length := by
    rw [hform]
    simp only [List.length_cons, List.length_append, length_putBe]
    omega
  have hrecs' : recs.length < 256 ^ 2 := hrecs
  refine ⟨?_, by omega, ?_, ?_⟩
  · have hversion : getBe (recordsReply recs) 0 1 = 5 := by
      rw [hform]
      exact getBe_byte 5 _
    have htype : getBe (recordsReply recs) 1 1 = 4 := by
      rw [hform, getBe_cons (by omega)]
      exact getBe_byte 4 _
    exact decide_eq_true ⟨by omega, hversion, htype⟩
  · rw [hform]
    simp (disch := omega) only [getBe_cons, Nat.reduceSub, getBe_putBe_of_lt]
  · unfold recordsReply
    exact List.drop_left' (by simp)

section Loop

variable {S : Type} {ops : StoreOps S} {st : S} {k : StreamKey} {last : UInt64} {cap : ℕ}

theorem length_recordsFrom (n : ℕ) (seq : UInt64) (off : ℕ) :
    (recordsFrom ops st k last cap n seq off).length ≤ n := by
  induction n generalizing seq off with
  | zero => exact Nat.le_refl 0
  | succ n ih =>
    rw [recordsFrom]
    split
    · split
      · exact Nat.zero_le _
      · split
        · exact Nat.zero_le _
        · rw [List.length_cons]
          exact Nat.succ_le_succ (ih _ _)
    · exact Nat.zero_le _

/-- Record `i` of an answer is the store's at the sequence `i` on, and was received. -/
theorem getElem?_recordsFrom {n : ℕ} {seq : UInt64} {off i : ℕ} {r : RecordView}
    (hlast : last.toNat + 1 < 2 ^ 64)
    (hi : (recordsFrom ops st k last cap n seq off)[i]? = some r) :
    seq.toNat + i ≤ last.toNat ∧
      recordStoreGet ops st ⟨k, UInt64.ofNat (seq.toNat + i)⟩ = .ok r := by
  induction n generalizing seq off i with
  | zero => cases hi
  | succ n ih =>
    rw [recordsFrom] at hi
    split at hi
    swap
    · cases hi
    next hle =>
      have hle := UInt64.le_iff_toNat_le.1 hle
      split at hi
      · cases hi
      next q hq =>
        split at hi
        · cases hi
        · cases i with
          | zero =>
            obtain rfl := Option.some.inj hi
            refine ⟨by omega, ?_⟩
            rw [Nat.add_zero, UInt64.ofNat_toNat]
            exact hq
          | succ i =>
            have hnext : (seq + 1).toNat = seq.toNat + 1 := by
              rw [UInt64.toNat_add]
              exact Nat.mod_eq_of_lt (by show seq.toNat + 1 < _; omega)
            obtain ⟨hbound, hget⟩ := ih hi
            rw [hnext] at hbound hget
            refine ⟨by omega, ?_⟩
            rwa [Nat.add_assoc, Nat.add_comm 1 i] at hget

/-- **An answer is not empty** where the first record was received, is held, and any record
fits. -/
theorem recordsFrom_ne_nil {n : ℕ} {seq : UInt64} {off : ℕ} {r : RecordView} (hn : n ≠ 0)
    (hle : seq ≤ last) (hget : recordStoreGet ops st ⟨k, seq⟩ = .ok r) (hcap : off + 702 ≤ cap) :
    recordsFrom ops st k last cap n seq off ≠ [] := by
  have hsmall := length_of_open r
  obtain ⟨n, rfl⟩ := Nat.exists_eq_succ_of_ne_zero hn
  rw [recordsFrom, if_pos hle]
  simp only [hget]
  rw [if_neg (by omega)]
  exact List.cons_ne_nil _ _

end Loop

/-! ## The queries -/

section Queries

variable {S : Type} {ops : StoreOps S} {j : Journal} {st : S} {cap : ℕ}

/-- **A digest query is answered** with the page from the position it names. -/
theorem exchangeAnswer_digest {n : ℕ} (hn : n ≤ (syncDigest j syncMaxPositions).length)
    (hcap : 8 ≤ cap) : exchangeAnswer ops j st (digestQuery n) cap =
      digestPage (syncDigest j syncMaxPositions).length n
        (((syncDigest j syncMaxPositions).drop n).take ((cap - 8) / 44)) := by
  have hmax : (syncDigest j syncMaxPositions).length ≤ 1024 := by
    unfold syncDigest
    split
    · exact Nat.zero_le _
    · rw [List.length_map, List.length_take]
      exact Nat.min_le_left _ _
  have hsmall : n < 256 ^ 2 := by
    norm_num
    omega
  have hquery : isMessage (digestQuery n) 1 = true := by
    have hlen : (digestQuery n).length = 4 := by simp [digestQuery]
    exact decide_eq_true ⟨by omega, getBe_byte 5 _, getBe_byte 1 _⟩
  have hfrom : getBe (digestQuery n) 2 2 = n := by
    show getBe (5 :: 1 :: putBe 2 n) 2 2 = n
    rw [getBe_cons (by omega), getBe_cons (by omega), ← List.append_nil (putBe 2 n)]
    exact getBe_putBe_of_lt [] hsmall
  have hstart : digestStart (digestQuery n) (syncDigest j syncMaxPositions) = n := by
    rw [digestStart, hfrom]
    exact Nat.min_eq_left hn
  unfold exchangeAnswer answerDigest
  rw [if_pos hquery, if_neg (by simp [digestQuery]; omega), hstart]

/-- **A records query is answered** with the records of its stream from its sequence on. -/
theorem exchangeAnswer_records {want : SyncRequest} {next left : UInt64} (hnext : next ≠ 0)
    (hleft : left ≠ 0) (hcap : 4 ≤ cap) :
    exchangeAnswer ops j st (recordsQuery want next left) cap =
      recordsReply (recordsFrom ops st want.key (journalNext j want.key - 1) cap
        (min left.toNat 0xffff) next 4) := by
  have hform : recordsQuery want next left = 5 :: 3 :: (putBe 32 want.key.issuer.toNat ++
      (putBe 4 want.key.stream.toNat ++ (putBe 8 next.toNat ++
        (putBe 2 (min left.toNat 0xffff) ++ [])))) := by
    simp [recordsQuery]
  have hlen : (recordsQuery want next left).length = 48 := by simp [recordsQuery]
  have hversion : getBe (recordsQuery want next left) 0 1 = 5 := by
    rw [hform]
    exact getBe_byte 5 _
  have htype : getBe (recordsQuery want next left) 1 1 = 3 := by
    rw [hform, getBe_cons (by omega)]
    exact getBe_byte 3 _
  have hnot : isMessage (recordsQuery want next left) 1 = false :=
    decide_eq_false fun h => by
      rw [htype] at h
      exact absurd h.2.2 (by decide)
  have hquery : isMessage (recordsQuery want next left) 3 = true :=
    decide_eq_true ⟨by omega, hversion, htype⟩
  have hissuer := toNat_lt_bytes want.key.issuer
  have hstream : want.key.stream.toNat < 256 ^ 4 := want.key.stream.toNat_lt
  have hseq := toNat_lt_be64 next
  have hmany : min left.toNat 0xffff < 256 ^ 2 := by
    norm_num
  have hkey : queryKey (recordsQuery want next left) = want.key := by
    unfold queryKey
    rw [hform]
    simp (disch := omega) only [getBe_cons, getBe_skip, Nat.reduceSub, getBe_putBe_of_lt,
      BitVec.ofNat_toNat, BitVec.setWidth_eq, UInt32.ofNat_toNat]
  have hfrom : getBe (recordsQuery want next left) 38 8 = next.toNat := by
    rw [hform]
    simp (disch := omega) only [getBe_cons, getBe_skip, Nat.reduceSub, getBe_putBe_of_lt]
  have hmax : getBe (recordsQuery want next left) 46 2 = min left.toNat 0xffff := by
    rw [hform]
    simp (disch := omega) only [getBe_cons, getBe_skip, Nat.reduceSub, getBe_putBe_of_lt]
  have hpos : next.toNat ≠ 0 := fun h => hnext (UInt64.toNat_inj.1 h)
  have hpos' : left.toNat ≠ 0 := fun h => hleft (UInt64.toNat_inj.1 h)
  have hbudget : min (min left.toNat 0xffff) 0xffff = min left.toNat 0xffff := by omega
  unfold exchangeAnswer answerRecords
  rw [hnot, if_neg (by decide), if_pos hquery, if_neg (by omega), hfrom, hmax, if_neg (by omega),
    hkey, hbudget, UInt64.ofNat_toNat]

end Queries

end Record
end Fuzznet
