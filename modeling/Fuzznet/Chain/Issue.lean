/-
# Issuing a manifest into a caller's buffer

`chain/manifest.c`: `fzn_manifest_open`, `fzn_manifest_issue`.  The pairs are sorted where
they will be read, 97 bytes each from byte 36 of the output buffer on: each candidate is
looked for from the front (`scanPairs`), the pairs behind its place are moved up and it is
written in front of them (`insertPair`).  The header goes in front, the bytes are opened as
a reader opens them, and the signature goes behind.

The buffer is read as a list of entries (`Holding`), and on it every step is the one
`manifestIssue` takes on the list (`issueInto_eq`).  What is issued is then a matter of the
list: ascending, because an insertion keeps it so, and the issuer's entries, because no two
of them are about one triple.
-/

import Fuzznet.Chain.Manifest
import Fuzznet.Lib.Buffer
import Fuzznet.Lib.Pieces
import Fuzznet.Wire.Codec

namespace Fuzznet
namespace Chain

open Wire

/-! ## A manifest's bytes -/

/-- `FZN_MANIFEST_PAIR_LEN`. -/
def manifestPairLen : ℕ := 97

/-- `FZN_MANIFEST_OFF_PAIRS`. -/
def manifestHeaderLen : ℕ := 36

/-- The bytes of pair `i`. -/
def pairAt (bs : Bytes) (i : ℕ) : Bytes :=
  Lib.load bs (manifestHeaderLen + manifestPairLen * i) manifestPairLen

/-- What `pair_cmp` compares: the first `FZN_MANIFEST_KEY_LEN` bytes. -/
def pairKey (pair : Bytes) : ℕ := getBe pair 0 64

/-- An entry as the accessors read it. -/
def entryOpen (pair : Bytes) : ManifestEntry where
  capability := ⟨BitVec.ofNat 256 (getBe pair 0 32)⟩
  grantee := BitVec.ofNat 256 (getBe pair 32 32)
  id := BitVec.ofNat 256 (getBe pair 64 32)
  withdrawn := getBe pair 96 1 == 1

theorem getBe_putBe_putBe (m n a b : ℕ) (rest : Bytes) :
    getBe (putBe m a ++ (putBe n b ++ rest)) 0 (m + n) =
      a % 256 ^ m * 256 ^ n + b % 256 ^ n := by
  rw [← List.append_assoc, getBe_append_left (by simp)]
  unfold getBe
  rw [List.drop_zero, List.take_of_length_le (by simp), List.foldl_append, foldl_putBe,
    foldl_putBe, Nat.zero_mul, Nat.zero_add]

theorem putBe_zero (n : ℕ) : putBe n 0 = List.replicate n 0 := by
  induction n with
  | zero => rfl
  | succ n ih => rw [putBe_succ, ih, Nat.zero_shiftRight, List.replicate_succ]; rfl

/-- The key of an entry is what its first bytes spell. -/
theorem key_entryOpen {pair : Bytes} (h : pair.length = manifestPairLen) :
    (entryOpen pair).key = pairKey pair := by
  have hcap : putBe 32 (getBe pair 0 32) = pair.take 32 := by
    rw [putBe_getBe (by rw [h]; decide), List.drop_zero]
  have hgrantee : putBe 32 (getBe pair 32 32) = (pair.drop 32).take 32 :=
    putBe_getBe (by rw [h]; decide)
  have hsplit : pair = putBe 32 (getBe pair 0 32) ++
      (putBe 32 (getBe pair 32 32) ++ (pair.drop 32).drop 32) := by
    rw [hcap, hgrantee, List.take_append_drop, List.take_append_drop]
  have hkey : pairKey pair = getBe pair 0 32 * 256 ^ 32 + getBe pair 32 32 := by
    have hread := getBe_putBe_putBe 32 32 (getBe pair 0 32) (getBe pair 32 32)
      ((pair.drop 32).drop 32)
    rwa [← hsplit, Nat.mod_eq_of_lt (getBe_lt ..), Nat.mod_eq_of_lt (getBe_lt ..)] at hread
  have hlt : getBe pair 32 32 < 2 ^ 256 := getBe_lt pair 32 32
  have hlt' : getBe pair 0 32 < 2 ^ 256 := getBe_lt pair 0 32
  rw [hkey, ManifestEntry.key, entryOpen, BitVec.toNat_append, BitVec.toNat_ofNat,
    BitVec.toNat_ofNat, Nat.mod_eq_of_lt hlt, Nat.mod_eq_of_lt hlt', ← Nat.shiftLeft_add_eq_or_of_lt hlt,
    Nat.shiftLeft_eq]
  rfl

theorem length_pairAt {bs : Bytes} {count i : ℕ} (hlen : bs.length = manifestLen count)
    (hi : i < count) : (pairAt bs i).length = manifestPairLen := by
  refine Lib.length_load ?_
  rw [hlen, manifestLen, manifestHeaderLen, manifestPairLen]
  omega

/-- What the order check of `fzn_manifest_open` makes of the entries. -/
theorem ascending_of_isChain {bs : Bytes} {count : ℕ} (hlen : bs.length = manifestLen count)
    (h : ((List.range count).map fun i => pairKey (pairAt bs i)).IsChain (· < ·)) :
    ((List.range count).map fun i => entryOpen (pairAt bs i)).Pairwise fun a b => a.key < b.key := by
  rw [List.isChain_iff_pairwise, List.pairwise_map] at h
  rw [List.pairwise_map]
  refine h.imp_of_mem fun {i j} hi hj hlt => ?_
  rwa [key_entryOpen (length_pairAt hlen (List.mem_range.1 hi)),
    key_entryOpen (length_pairAt hlen (List.mem_range.1 hj))]

/-- `fzn_manifest_open`. -/
def manifestOpen (bs : Bytes) : Except ManifestErr ManifestRecord :=
  if bs.length < manifestLen 0 then .error .shape
  else if getBe bs 0 1 ≠ signedVersion.toNat then .error .shape
  else if getBe bs 1 1 ≠ SignedObject.manifest.tag.toNat then .error .shape
  else if hcount : manifestMaxPairs < getBe bs 34 2 then .error .shape
  else if hlen : bs.length ≠ manifestLen (getBe bs 34 2) then .error .shape
  else if h : ((List.range (getBe bs 34 2)).map fun i => pairKey (pairAt bs i)).IsChain (· < ·) then
    if (List.range (getBe bs 34 2)).any fun i => 1 < getBe (pairAt bs i) 96 1 then .error .shape
    else .ok {
      issuer := BitVec.ofNat 256 (getBe bs 2 32)
      entries := (List.range (getBe bs 34 2)).map fun i => entryOpen (pairAt bs i)
      signature := BitVec.ofNat 512 (getBe bs (manifestHeaderLen + manifestPairLen * getBe bs 34 2) 64)
      ascending := ascending_of_isChain (not_not.1 hlen) h
      bounded := by
        rw [List.length_map, List.length_range]
        omega }
  else .error .shape

/-- The whole manifest: its body and the signature behind it. -/
def ManifestRecord.bytes (m : ManifestRecord) : Bytes := m.signedBytes ++ putBe 64 m.signature.toNat

theorem ManifestEntry.length_bytes (e : ManifestEntry) : e.bytes.length = manifestPairLen := by
  simp [ManifestEntry.bytes, manifestPairLen]

/-- What a reader reads of an entry's bytes. -/
theorem ManifestEntry.getBe_bytes (e : ManifestEntry) :
    getBe e.bytes 0 32 = e.capability.b.toNat ∧ getBe e.bytes 32 32 = e.grantee.toNat ∧
      getBe e.bytes 64 32 = e.id.toNat ∧
      getBe e.bytes 96 1 = (if e.withdrawn then 1 else 0 : UInt8).toNat := by
  have hbytes : e.bytes = putBe 32 e.capability.b.toNat ++ (putBe 32 e.grantee.toNat ++
      (putBe 32 e.id.toNat ++ [if e.withdrawn then 1 else 0])) := by
    simp only [ManifestEntry.bytes, List.append_assoc]
  rw [hbytes]
  simp (disch := omega) only [getBe_skip, Nat.reduceSub]
  exact ⟨getBe_putBe_of_lt _ (toNat_lt_bytes _), getBe_putBe_of_lt _ (toNat_lt_bytes _),
    getBe_putBe_of_lt _ (toNat_lt_bytes _), getBe_byte _ _⟩

theorem entryOpen_bytes (e : ManifestEntry) : entryOpen e.bytes = e := by
  obtain ⟨hcap, hgrantee, hid, hstate⟩ := e.getBe_bytes
  have hback : ((if e.withdrawn then 1 else 0 : UInt8).toNat == 1) = e.withdrawn := by
    cases e.withdrawn <;> decide
  rw [entryOpen, hcap, hgrantee, hid, hstate, hback]
  simp

theorem pairKey_bytes (e : ManifestEntry) : pairKey e.bytes = e.key := by
  rw [← key_entryOpen e.length_bytes, entryOpen_bytes]

/-- The bytes in front of the pairs. -/
def manifestHeader (issuer : Key) (count : ℕ) : Bytes :=
  [signedVersion, SignedObject.manifest.tag] ++ putBe 32 issuer.toNat ++ putBe 2 count

@[simp] theorem length_manifestHeader (issuer : Key) (count : ℕ) :
    (manifestHeader issuer count).length = manifestHeaderLen := by
  simp [manifestHeader, manifestHeaderLen]

theorem length_entries (entries : List ManifestEntry) :
    (entries.flatMap ManifestEntry.bytes).length = manifestPairLen * entries.length := by
  rw [Lib.length_flatMap_blocks fun e _ => e.length_bytes, Nat.mul_comm]

/-- Pair `i` of a list of entries laid behind a header. -/
theorem pairAt_laid {front rest : Bytes} {entries : List ManifestEntry} {i : ℕ}
    (hfront : front.length = manifestHeaderLen) (hi : i < entries.length) :
    pairAt (front ++ (entries.flatMap ManifestEntry.bytes ++ rest)) i = entries[i].bytes := by
  have hblock := Lib.block_flatMap (fun e (_ : e ∈ entries) => e.length_bytes) hi
  have hlen := length_entries entries
  have hle : manifestPairLen * i + manifestPairLen ≤ manifestPairLen * entries.length := by
    rw [← Nat.mul_succ]
    exact Nat.mul_le_mul_left _ hi
  rw [pairAt, Lib.load, ← List.drop_drop, List.drop_left' hfront,
    List.drop_append_of_le_length (by omega),
    List.take_append_of_le_length (by rw [List.length_drop]; omega), Nat.mul_comm]
  exact hblock

/-- What a reader reads of a manifest's bytes. -/
theorem ManifestRecord.getBe_bytes (m : ManifestRecord) :
    m.bytes.length = manifestLen m.entries.length ∧ getBe m.bytes 0 1 = signedVersion.toNat ∧
      getBe m.bytes 1 1 = SignedObject.manifest.tag.toNat ∧
      getBe m.bytes 2 32 = m.issuer.toNat ∧ getBe m.bytes 34 2 = m.entries.length ∧
      getBe m.bytes (manifestHeaderLen + manifestPairLen * m.entries.length) 64 =
        m.signature.toNat ∧
      ∀ (i : ℕ) (hi : i < m.entries.length), pairAt m.bytes i = m.entries[i].bytes := by
  have hlen := length_entries m.entries
  have hlaid : m.bytes = manifestHeader m.issuer m.entries.length ++
      (m.entries.flatMap ManifestEntry.bytes ++ putBe 64 m.signature.toNat) := by
    simp only [bytes, signedBytes, manifestBody, manifestHeader, List.append_assoc]
  have hfields : m.bytes = signedVersion :: SignedObject.manifest.tag ::
      (putBe 32 m.issuer.toNat ++ (putBe 2 m.entries.length ++
        (m.entries.flatMap ManifestEntry.bytes ++ putBe 64 m.signature.toNat))) := by
    rw [hlaid, manifestHeader]
    simp only [List.append_assoc, List.cons_append, List.nil_append]
  have hcount : m.entries.length < 256 ^ 2 := by
    have hle := m.bounded
    rw [manifestMaxPairs] at hle
    omega
  refine ⟨?_, ?_, ?_, ?_, ?_, ?_, fun i hi => ?_⟩
  · rw [hlaid, List.length_append, List.length_append, length_manifestHeader, hlen, length_putBe,
      manifestLen, manifestHeaderLen, manifestPairLen]
    omega
  · rw [hfields]
    exact getBe_byte _ _
  · rw [hfields, getBe_cons (by omega)]
    exact getBe_byte _ _
  · rw [hfields]
    simp (disch := omega) only [getBe_cons, Nat.reduceSub]
    exact getBe_putBe_of_lt _ (toNat_lt_bytes _)
  · rw [hfields]
    simp (disch := omega) only [getBe_cons, getBe_skip, Nat.reduceSub]
    exact getBe_putBe_of_lt _ hcount
  · refine @getBe_of_drop _ [] _ _ _ ?_ (toNat_lt_sig _)
    rw [hlaid, ← List.drop_drop, List.drop_left' (length_manifestHeader _ _),
      List.drop_left' hlen, List.append_nil]
  · rw [hlaid]
    exact pairAt_laid (length_manifestHeader _ _) hi

/-- **A manifest's bytes open to the manifest.** -/
theorem manifestOpen_bytes (m : ManifestRecord) : manifestOpen m.bytes = .ok m := by
  obtain ⟨hlen, hversion, htag, hissuer, hcount, hsig, hpairs⟩ := m.getBe_bytes
  have hentries : (List.range m.entries.length).map (fun i => entryOpen (pairAt m.bytes i)) =
      m.entries := by
    refine List.ext_getElem (by simp) fun i _ hi => ?_
    rw [List.getElem_map, List.getElem_range, hpairs i hi, entryOpen_bytes]
  have hkeys : (List.range m.entries.length).map (fun i => pairKey (pairAt m.bytes i)) =
      m.entries.map ManifestEntry.key := by
    refine List.ext_getElem (by simp) fun i _ hi => ?_
    rw [List.length_map] at hi
    rw [List.getElem_map, List.getElem_map, List.getElem_range, hpairs i hi, pairKey_bytes]
  have hchain : ((List.range m.entries.length).map fun i => pairKey (pairAt m.bytes i)).IsChain
      (· < ·) := by
    rw [hkeys, List.isChain_iff_pairwise, List.pairwise_map]
    exact m.ascending
  have hstates : ¬((List.range m.entries.length).any
      fun i => decide (1 < getBe (pairAt m.bytes i) 96 1)) = true := by
    rw [List.any_eq_true]
    rintro ⟨i, hi, hstate⟩
    have hin : i < m.entries.length := List.mem_range.1 hi
    rw [hpairs i hin, m.entries[i].getBe_bytes.2.2.2] at hstate
    split at hstate
    next => cases hstate
    next => cases hstate
  unfold manifestOpen
  rw [if_neg (by rw [hlen, manifestLen, manifestLen]; omega), if_neg (by simp [hversion]),
    if_neg (by simp [htag])]
  simp only [hcount]
  rw [dif_neg (by have := m.bounded; omega), dif_neg (by simp [hlen]), dif_pos hchain,
    if_neg hstates]
  congr 1
  simp only [hissuer, hentries, hsig]
  simp

/-! ## Sorting in the buffer -/

/-- The search of `fzn_manifest_issue` from pair `at_` on, `n` pairs to go: where the candidate
belongs, or nothing when its pair is there. -/
def scanPairs (out candidate : Bytes) : ℕ → ℕ → Option ℕ
  | 0, at_ => some at_
  | n + 1, at_ =>
    if pairKey (pairAt out at_) = pairKey candidate then none
    else if pairKey candidate < pairKey (pairAt out at_) then some at_
    else scanPairs out candidate n (at_ + 1)

/-- The `memmove` of the pairs behind `at_`, and the candidate written in front of them. -/
def insertPair (out candidate : Bytes) (count at_ : ℕ) : Bytes :=
  let moved := Lib.store out (manifestHeaderLen + manifestPairLen * (at_ + 1))
    (Lib.load out (manifestHeaderLen + manifestPairLen * at_) (manifestPairLen * (count - at_)))
  Lib.store moved (manifestHeaderLen + manifestPairLen * at_) candidate

/-- The loop of `fzn_manifest_issue` over the store: the buffer and how many pairs it holds. -/
def issuePairs (issuer : Key) : List Revocation → Bytes → ℕ → Except ManifestErr (Bytes × ℕ)
  | [], out, count => .ok (out, count)
  | e :: es, out, count =>
    if e.issuer ≠ issuer then issuePairs issuer es out count
    else if manifestMaxPairs ≤ count then .error .shape
    else if out.length < manifestLen (count + 1) then .error .malformed
    else match scanPairs out e.manifestEntry.bytes count 0 with
      | none => issuePairs issuer es out count
      | some at_ =>
        issuePairs issuer es (insertPair out e.manifestEntry.bytes count at_) (count + 1)

/-- `fzn_manifest_issue` into the buffer `out`: the `*out_len` bytes it leaves there. -/
def issueInto (issuer : Key) (s : Option RevocationStore) (sign : SignOps) (out : Bytes) :
    Except ManifestErr Bytes :=
  if s.any (fun s => !storeSound s) then .error .malformed
  else if out.length < manifestLen 0 then .error .malformed
  else match issuePairs issuer (s.elim [] RevocationStore.entries) out 0 with
    | .error err => .error err
    | .ok (out, count) =>
      let bodyLen := manifestHeaderLen + manifestPairLen * count
      let out := Lib.store out 0 (manifestHeader issuer count)
      let out := Lib.store out bodyLen (List.replicate 64 0)
      match manifestOpen (out.take (manifestLen count)) with
      | .error err => .error err
      | .ok rec => match sign.sign rec.signedBytes with
          | none => .error .signature
          | some signature =>
            .ok ((Lib.store out bodyLen (putBe 64 signature.toNat)).take (manifestLen count))

/-- The buffer holds the entries where the pairs stand, and has room for a signature behind
them. -/
structure Holding (out : Bytes) (entries : List ManifestEntry) : Prop where
  laid : ∃ front rest : Bytes, front.length = manifestHeaderLen ∧
    out = front ++ (entries.flatMap ManifestEntry.bytes ++ rest)
  room : manifestLen entries.length ≤ out.length

/-- **The search in the buffer is the search in the list.** -/
theorem scanPairs_eq {front rest : Bytes} (pre es : List ManifestEntry) (c : ManifestEntry)
    (hfront : front.length = manifestHeaderLen) :
    (scanPairs (front ++ ((pre ++ es).flatMap ManifestEntry.bytes ++ rest)) c.bytes es.length
        pre.length = none ∧ insertEntry c es = es) ∨
      ∃ es₁ es₂, es = es₁ ++ es₂ ∧ insertEntry c es = es₁ ++ c :: es₂ ∧
        scanPairs (front ++ ((pre ++ es).flatMap ManifestEntry.bytes ++ rest)) c.bytes es.length
          pre.length = some (pre.length + es₁.length) := by
  induction es generalizing pre with
  | nil => exact .inr ⟨[], [], rfl, rfl, rfl⟩
  | cons e es ih =>
    have hkey : pairKey (pairAt (front ++
        ((pre ++ e :: es).flatMap ManifestEntry.bytes ++ rest)) pre.length) = e.key := by
      rw [pairAt_laid hfront (by simp), List.getElem_append_right (Nat.le_refl _)]
      simp [pairKey_bytes]
    rw [List.length_cons, scanPairs, hkey, pairKey_bytes, insertEntry]
    by_cases heq : e.key = c.key
    · rw [if_pos heq, if_pos heq]
      exact .inl ⟨rfl, rfl⟩
    rw [if_neg heq, if_neg heq]
    by_cases hlt : c.key < e.key
    · rw [if_pos hlt, if_pos hlt]
      exact .inr ⟨[], e :: es, rfl, rfl, rfl⟩
    rw [if_neg hlt, if_neg hlt]
    have hnext := ih (pre ++ [e])
    rw [List.append_assoc, List.singleton_append, List.length_append, List.length_singleton] at hnext
    rcases hnext with ⟨hscan, hins⟩ | ⟨es₁, es₂, rfl, hins, hscan⟩
    · exact .inl ⟨hscan, by rw [hins]⟩
    · refine .inr ⟨e :: es₁, es₂, rfl, by rw [hins]; rfl, ?_⟩
      rw [hscan, List.length_cons]
      congr 1
      omega

/-- **The buffer behind an insertion** holds the entries with the candidate in its place. -/
theorem insertPair_eq {front rest : Bytes} {es₁ es₂ : List ManifestEntry} (c : ManifestEntry)
    (hfront : front.length = manifestHeaderLen) (hroom : manifestPairLen ≤ rest.length) :
    insertPair (front ++ ((es₁ ++ es₂).flatMap ManifestEntry.bytes ++ rest)) c.bytes
        (es₁ ++ es₂).length es₁.length =
      front ++ ((es₁ ++ c :: es₂).flatMap ManifestEntry.bytes ++ rest.drop manifestPairLen) := by
  have hfront' : (front ++ es₁.flatMap ManifestEntry.bytes).length =
      manifestHeaderLen + manifestPairLen * es₁.length := by
    rw [List.length_append, hfront, length_entries]
  have hmid : (es₂.flatMap ManifestEntry.bytes).length =
      manifestPairLen * ((es₁ ++ es₂).length - es₁.length) := by
    rw [length_entries, List.length_append, Nat.add_sub_cancel_left]
  have hopened := Lib.store_opened hfront' hmid c.length_bytes hroom
  have hnext : manifestHeaderLen + manifestPairLen * (es₁.length + 1) =
      manifestHeaderLen + manifestPairLen * es₁.length + manifestPairLen := by
    rw [Nat.mul_succ, Nat.add_assoc]
  have hlaid : ∀ es : List ManifestEntry, front ++ ((es₁ ++ es).flatMap ManifestEntry.bytes ++ rest) =
      front ++ es₁.flatMap ManifestEntry.bytes ++ (es.flatMap ManifestEntry.bytes ++ rest) := by
    intro es
    rw [List.flatMap_append]
    simp only [List.append_assoc]
  rw [insertPair, hnext, hlaid, hopened, List.flatMap_append, List.flatMap_cons]
  simp only [List.append_assoc]

/-- **The loop in the buffer is the loop on the list.** -/
theorem issuePairs_eq (issuer : Key) (es : List Revocation) {out : Bytes}
    (acc : List ManifestEntry) (h : Holding out acc) :
    match issueEntries issuer out.length es acc with
    | .error err => issuePairs issuer es out acc.length = .error err
    | .ok acc' => ∃ out', issuePairs issuer es out acc.length = .ok (out', acc'.length) ∧
        out'.length = out.length ∧ Holding out' acc' := by
  induction es generalizing out acc with
  | nil => exact ⟨out, rfl, rfl, h⟩
  | cons e es ih =>
    rw [issueEntries, issuePairs]
    by_cases hissuer : e.issuer ≠ issuer
    · rw [if_pos hissuer, if_pos hissuer]
      exact ih acc h
    rw [if_neg hissuer, if_neg hissuer]
    by_cases hmany : manifestMaxPairs ≤ acc.length
    · rw [if_pos hmany, if_pos hmany]
    rw [if_neg hmany, if_neg hmany]
    by_cases hroom : out.length < manifestLen (acc.length + 1)
    · rw [if_pos hroom, if_pos hroom]
    rw [if_neg hroom, if_neg hroom]
    obtain ⟨front, rest, hfront, rfl⟩ := h.laid
    rcases @scanPairs_eq front rest [] acc e.manifestEntry hfront with
      ⟨hscan, hins⟩ | ⟨es₁, es₂, rfl, hins, hscan⟩
    · rw [List.nil_append, List.length_nil] at hscan
      rw [hscan, hins]
      exact ih acc h
    · rw [List.nil_append, List.length_nil, Nat.zero_add] at hscan
      have hlen := length_entries (es₁ ++ es₂)
      have hrest : manifestPairLen ≤ rest.length := by
        rw [List.length_append, List.length_append, hlen, hfront, manifestLen,
          manifestHeaderLen, manifestPairLen] at hroom
        rw [manifestPairLen]
        omega
      have hcount : (insertEntry e.manifestEntry (es₁ ++ es₂)).length =
          (es₁ ++ es₂).length + 1 := by
        rw [hins, List.length_append, List.length_append, List.length_cons, Nat.add_assoc]
      have hsize : (front ++ ((insertEntry e.manifestEntry (es₁ ++ es₂)).flatMap
            ManifestEntry.bytes ++ rest.drop manifestPairLen)).length =
          (front ++ ((es₁ ++ es₂).flatMap ManifestEntry.bytes ++ rest)).length := by
        rw [List.length_append, List.length_append, List.length_append, List.length_append,
          length_entries, hcount, hlen, List.length_drop, Nat.mul_succ]
        omega
      have hnext := ih (insertEntry e.manifestEntry (es₁ ++ es₂))
        ⟨⟨front, rest.drop manifestPairLen, hfront, rfl⟩, by rw [hcount, hsize]; omega⟩
      rw [hsize, hcount] at hnext
      rw [hscan]
      dsimp only
      rw [insertPair_eq _ hfront hrest, ← hins]
      exact hnext

/-! ## The entries issued -/

theorem mem_of_mem_insertEntry {c x : ManifestEntry} {es : List ManifestEntry}
    (h : x ∈ insertEntry c es) : x = c ∨ x ∈ es := by
  induction es with
  | nil => exact .inl (List.mem_singleton.1 h)
  | cons e es ih =>
    rw [insertEntry] at h
    split_ifs at h
    · exact .inr h
    · exact List.mem_cons.1 h
    · rcases List.mem_cons.1 h with rfl | h
      · exact .inr List.mem_cons_self
      · exact (ih h).imp id (List.mem_cons_of_mem e)

/-- A pair that is not there yet is one entry more. -/
theorem insertEntry_new {c : ManifestEntry} {es : List ManifestEntry}
    (h : ∀ e ∈ es, e.key ≠ c.key) : (insertEntry c es).Perm (c :: es) := by
  induction es with
  | nil => exact List.Perm.refl _
  | cons e es ih =>
    obtain ⟨hne, hrest⟩ := List.forall_mem_cons.1 h
    rw [insertEntry, if_neg hne]
    split_ifs
    · exact List.Perm.refl _
    · exact ((ih hrest).cons e).trans (List.Perm.swap c e es)

/-- An insertion keeps the order. -/
theorem insertEntry_ascending {c : ManifestEntry} {es : List ManifestEntry}
    (h : es.Pairwise fun a b => a.key < b.key) :
    (insertEntry c es).Pairwise fun a b => a.key < b.key := by
  induction es with
  | nil => exact List.pairwise_singleton _ _
  | cons e es ih =>
    obtain ⟨hfirst, hrest⟩ := List.pairwise_cons.1 h
    rw [insertEntry]
    split_ifs with heq hlt
    · exact h
    · refine List.pairwise_cons.2 ⟨List.forall_mem_cons.2 ⟨hlt, fun x hx => ?_⟩, h⟩
      exact hlt.trans (hfirst x hx)
    · refine List.pairwise_cons.2 ⟨fun x hx => ?_, ih hrest⟩
      rcases mem_of_mem_insertEntry hx with rfl | hx
      · omega
      · exact hfirst x hx

theorem length_insertEntry_le (c : ManifestEntry) (es : List ManifestEntry) :
    (insertEntry c es).length ≤ es.length + 1 := by
  induction es with
  | nil => exact Nat.le_refl 1
  | cons e es ih =>
    rw [insertEntry]
    split_ifs
    · exact Nat.le_succ _
    · exact Nat.le_refl _
    · exact Nat.succ_le_succ ih

/-- The entries of the store the issuer's manifest is about. -/
def ownEntries (issuer : Key) (es : List Revocation) : List ManifestEntry :=
  (es.filter fun e => e.issuer = issuer).map Revocation.manifestEntry

theorem mem_ownEntries {issuer : Key} {es : List Revocation} {m : ManifestEntry} :
    m ∈ ownEntries issuer es ↔ ∃ e ∈ es, e.issuer = issuer ∧ e.manifestEntry = m := by
  simp [ownEntries, and_assoc]

section Loop

variable {issuer : Key} {outCap : ℕ} {es : List Revocation} {acc acc' : List ManifestEntry}

theorem ownEntries_cons_of_ne {e : Revocation} (h : e.issuer ≠ issuer) :
    ownEntries issuer (e :: es) = ownEntries issuer es := by
  rw [ownEntries, List.filter_cons_of_neg (by simpa using h), ownEntries]

theorem ownEntries_cons_of_eq {e : Revocation} (h : e.issuer = issuer) :
    ownEntries issuer (e :: es) = e.manifestEntry :: ownEntries issuer es := by
  rw [ownEntries, List.filter_cons_of_pos (by simpa using h), List.map_cons, ownEntries]

/-- **What the loop lists** is in order and within the bound. -/
theorem issueEntries_ascending (h : issueEntries issuer outCap es acc = .ok acc')
    (hacc : acc.Pairwise fun a b => a.key < b.key) (hlen : acc.length ≤ manifestMaxPairs) :
    (acc'.Pairwise fun a b => a.key < b.key) ∧ acc'.length ≤ manifestMaxPairs := by
  induction es generalizing acc with
  | nil =>
    obtain rfl := Except.ok.inj h
    exact ⟨hacc, hlen⟩
  | cons e es ih =>
    rw [issueEntries] at h
    split_ifs at h with hissuer hmany hroom
    · exact ih h hacc hlen
    · have hle := length_insertEntry_le e.manifestEntry acc
      exact ih h (insertEntry_ascending hacc) (by omega)

/-- **What the loop lists** is the issuer's entries, where no two are about one pair. -/
theorem issueEntries_perm (h : issueEntries issuer outCap es acc = .ok acc')
    (hnodup : ((ownEntries issuer es ++ acc).map ManifestEntry.key).Nodup) :
    acc'.Perm (ownEntries issuer es ++ acc) := by
  induction es generalizing acc with
  | nil =>
    obtain rfl := Except.ok.inj h
    exact List.Perm.refl _
  | cons e es ih =>
    rw [issueEntries] at h
    split_ifs at h with hissuer hmany hroom
    · rw [ownEntries_cons_of_ne hissuer] at hnodup ⊢
      exact ih h hnodup
    · rw [ownEntries_cons_of_eq (not_not.1 hissuer)] at hnodup ⊢
      have hnew : ∀ x ∈ acc, x.key ≠ e.manifestEntry.key := by
        intro x hx heq
        rw [List.cons_append, List.map_cons, List.nodup_cons] at hnodup
        exact hnodup.1 (List.mem_map.2 ⟨x, List.mem_append_right _ hx, heq⟩)
      have hperm : (ownEntries issuer es ++ insertEntry e.manifestEntry acc).Perm
          (e.manifestEntry :: ownEntries issuer es ++ acc) :=
        ((insertEntry_new hnew).append_left _).trans List.perm_middle
      refine (ih h ?_).trans hperm
      exact ((hperm.map ManifestEntry.key).nodup_iff).2 hnodup

/-- **The loop lists them all** where there is room for them. -/
theorem issueEntries_ok (hmax : (ownEntries issuer es).length + acc.length ≤ manifestMaxPairs)
    (hcap : manifestLen ((ownEntries issuer es).length + acc.length) ≤ outCap) :
    ∃ acc', issueEntries issuer outCap es acc = .ok acc' := by
  induction es generalizing acc with
  | nil => exact ⟨acc, rfl⟩
  | cons e es ih =>
    rw [issueEntries]
    by_cases hissuer : e.issuer ≠ issuer
    · rw [ownEntries_cons_of_ne hissuer] at hmax hcap
      rw [if_pos hissuer]
      exact ih hmax hcap
    · rw [ownEntries_cons_of_eq (not_not.1 hissuer), List.length_cons] at hmax hcap
      have hle := length_insertEntry_le e.manifestEntry acc
      rw [manifestLen] at hcap
      rw [if_neg hissuer, if_neg (by omega), if_neg (by rw [manifestLen]; omega)]
      exact ih (by omega) (by rw [manifestLen]; omega)

end Loop

/-- The key spells the pair. -/
theorem ManifestEntry.key_eq (e : ManifestEntry) :
    e.key = e.capability.b.toNat * 2 ^ 256 + e.grantee.toNat := by
  rw [key, BitVec.toNat_append, ← Nat.shiftLeft_add_eq_or_of_lt e.grantee.isLt, Nat.shiftLeft_eq]

theorem ManifestEntry.key_inj {a b : ManifestEntry} (h : a.key = b.key) :
    a.capability = b.capability ∧ a.grantee = b.grantee := by
  rw [a.key_eq, b.key_eq] at h
  have hlt : a.grantee.toNat < 2 ^ 256 := a.grantee.isLt
  have hlt' : b.grantee.toNat < 2 ^ 256 := b.grantee.isLt
  have hcap : a.capability.b = b.capability.b := BitVec.eq_of_toNat_eq (by omega)
  refine ⟨?_, BitVec.eq_of_toNat_eq (by omega)⟩
  obtain ⟨⟨cap⟩, _⟩ := a
  obtain ⟨⟨cap'⟩, _⟩ := b
  exact congrArg CapId.mk hcap

/-- Entries of distinct triples are about distinct pairs. -/
theorem nodup_key_ownEntries {issuer : Key} {es : List Revocation}
    (h : (es.map Revocation.triple).Nodup) :
    ((ownEntries issuer es).map ManifestEntry.key).Nodup := by
  have hpairs : es.Pairwise fun a b => a.triple ≠ b.triple := List.pairwise_map.1 h
  rw [ownEntries, List.map_map]
  refine List.pairwise_map.2 ((hpairs.filter _).imp_of_mem fun {a b} ha hb hne heq => hne ?_)
  have hissuer : a.issuer = issuer := by simpa using (List.mem_filter.1 ha).2
  have hissuer' : b.issuer = issuer := by simpa using (List.mem_filter.1 hb).2
  obtain ⟨hcap, hgrantee⟩ : a.capability = b.capability ∧ a.grantee = b.grantee :=
    ManifestEntry.key_inj (a := a.manifestEntry) (b := b.manifestEntry) heq
  rw [Revocation.triple, Revocation.triple, hissuer, hissuer', hcap, hgrantee]

/-! ## The manifest issued -/

section Issued

variable {issuer : Key} {s : Option RevocationStore} {sign : SignOps} {out : Bytes}

/-- What `fzn_manifest_issue` writes in front of a sorted buffer, and behind it. -/
theorem store_header_signature {front rest flat : Bytes} {count : ℕ} (signature : Sig)
    (hfront : front.length = manifestHeaderLen) (hflat : flat.length = manifestPairLen * count)
    (hrest : 64 ≤ rest.length) :
    Lib.store (Lib.store (front ++ (flat ++ rest)) 0 (manifestHeader issuer count))
        (manifestHeaderLen + manifestPairLen * count) (putBe 64 signature.toNat) =
      manifestHeader issuer count ++ flat ++ (putBe 64 signature.toNat ++ rest.drop 64) := by
  have hheader : Lib.store (front ++ (flat ++ rest)) 0 (manifestHeader issuer count) =
      manifestHeader issuer count ++ (flat ++ rest) := by
    have h := @Lib.store_append_self _ [] front (flat ++ rest) _ 0 rfl
      (hfront.trans (length_manifestHeader issuer count).symm)
    rwa [List.nil_append, List.nil_append] at h
  have hsplit : manifestHeader issuer count ++ (flat ++ rest) =
      manifestHeader issuer count ++ flat ++ (rest.take 64 ++ rest.drop 64) := by
    rw [List.take_append_drop, List.append_assoc]
  rw [hheader, hsplit]
  refine Lib.store_append_self ?_ ?_
  · rw [List.length_append, length_manifestHeader, hflat]
  · rw [List.length_take, length_putBe]
    omega

/-- **Issuing into a buffer is issuing the manifest**: the same refusals, and the bytes of the
manifest issued. -/
theorem issueInto_eq :
    issueInto issuer s sign out = (manifestIssue issuer s sign out.length).map
      ManifestRecord.bytes := by
  rw [issueInto, manifestIssue]
  by_cases hsound : s.any (fun s => !storeSound s) = true
  · rw [if_pos hsound, if_pos hsound]
    rfl
  rw [if_neg hsound, if_neg hsound]
  by_cases hmin : out.length < manifestLen 0
  · rw [if_pos hmin, if_pos hmin]
    rfl
  rw [if_neg hmin, if_neg hmin]
  have hempty : Holding out [] := by
    refine ⟨⟨out.take manifestHeaderLen, out.drop manifestHeaderLen, ?_, ?_⟩, by simpa using hmin⟩
    · rw [manifestLen] at hmin
      rw [List.length_take, manifestHeaderLen]
      omega
    · exact (List.take_append_drop _ _).symm
  have hloop := issuePairs_eq issuer (s.elim [] RevocationStore.entries) [] hempty
  rw [List.length_nil] at hloop
  cases hissue : issueEntries issuer out.length (s.elim [] RevocationStore.entries) [] with
  | error err =>
    rw [hissue] at hloop
    dsimp only at hloop ⊢
    rw [hloop]
    rfl
  | ok entries =>
    rw [hissue] at hloop
    obtain ⟨out', hpairs, hsize, hholding⟩ := hloop
    obtain ⟨hascending, hbounded⟩ := issueEntries_ascending hissue List.Pairwise.nil
      (Nat.zero_le _)
    obtain ⟨front, rest, hfront, rfl⟩ := hholding.laid
    have hrest : 64 ≤ rest.length := by
      have hroom := hholding.room
      rw [List.length_append, List.length_append, length_entries, hfront, manifestLen,
        manifestHeaderLen, manifestPairLen] at hroom
      omega
    have hbody : (manifestHeader issuer entries.length ++
        entries.flatMap ManifestEntry.bytes).length =
          manifestHeaderLen + manifestPairLen * entries.length := by
      rw [List.length_append, length_manifestHeader, length_entries]
    have hbytes : ∀ signature : Sig, (manifestHeader issuer entries.length ++
        entries.flatMap ManifestEntry.bytes ++ (putBe 64 signature.toNat ++ rest.drop 64)).take
          (manifestLen entries.length) =
        ManifestRecord.bytes ⟨issuer, entries, signature, hascending, hbounded⟩ := by
      intro signature
      rw [← List.append_assoc]
      refine List.take_left' ?_
      rw [List.length_append, hbody, length_putBe, manifestLen, manifestHeaderLen,
        manifestPairLen]
    have hzero : List.replicate 64 0 = putBe 64 (0#512).toNat := by
      rw [BitVec.toNat_zero, putBe_zero]
    dsimp only
    rw [hpairs, dif_pos ⟨hbounded, hascending⟩]
    dsimp only
    rw [hzero, store_header_signature 0#512 hfront (length_entries _) hrest, hbytes,
      manifestOpen_bytes]
    dsimp only [ManifestRecord.signedBytes]
    cases hsigned : sign.sign (manifestBody issuer entries) with
    | none => rfl
    | some signature =>
      dsimp only
      rw [Lib.store_append_self hbody (by rw [length_putBe, length_putBe]), hbytes]
      rfl

/-- **The manifest issued is the store's.**  For a sound store with one entry a triple, into
any buffer: what is issued opens, its pairs strictly ascending (`ManifestRecord.ascending`),
as a manifest of the issuer with exactly the store's entries of that issuer, each with its id
and whether it is withdrawn; and it is issued whenever they are few enough, the buffer holds
that many and the signer signs. -/
theorem issueInto_publishes (hsound : ∀ t ∈ s, storeSound t = true)
    (hone : ∀ t ∈ s, (t.entries.map Revocation.triple).Nodup) :
    (∀ bytes, issueInto issuer s sign out = .ok bytes → ∃ rec, manifestOpen bytes = .ok rec ∧
      rec.issuer = issuer ∧ (rec.entries.Pairwise fun a b => a.key < b.key) ∧
      ∀ m, m ∈ rec.entries ↔
        ∃ t ∈ s, ∃ e ∈ t.entries, e.issuer = issuer ∧ e.manifestEntry = m) ∧
    ∀ n, n = (s.elim [] RevocationStore.entries).countP (fun e => e.issuer = issuer) →
      n ≤ manifestMaxPairs → manifestLen n ≤ out.length →
      (∀ body, (sign.sign body).isSome = true) →
      ∃ bytes, issueInto issuer s sign out = .ok bytes := by
  have hsound' : ¬s.any (fun s => !storeSound s) = true := by
    cases s with
    | none => simp
    | some t => simp [hsound t rfl]
  have hnodup : (((ownEntries issuer (s.elim [] RevocationStore.entries)) ++ []).map
      ManifestEntry.key).Nodup := by
    rw [List.append_nil]
    cases s with
    | none => exact List.nodup_nil
    | some t => exact nodup_key_ownEntries (hone t rfl)
  have hmem : ∀ m, m ∈ ownEntries issuer (s.elim [] RevocationStore.entries) ↔
      ∃ t ∈ s, ∃ e ∈ t.entries, e.issuer = issuer ∧ e.manifestEntry = m := by
    intro m
    rw [mem_ownEntries]
    cases s with
    | none => simp
    | some t => simp
  rw [issueInto_eq, manifestIssue, if_neg hsound']
  refine ⟨fun bytes h => ?_, fun n hn hmax hcap hsigns => ?_⟩
  · by_cases hmin : out.length < manifestLen 0
    · rw [if_pos hmin] at h
      cases h
    rw [if_neg hmin] at h
    cases hissue : issueEntries issuer out.length (s.elim [] RevocationStore.entries) [] with
    | error err =>
      rw [hissue] at h
      cases h
    | ok entries =>
      have hsorted := issueEntries_ascending hissue List.Pairwise.nil (Nat.zero_le _)
      have hperm := issueEntries_perm hissue hnodup
      rw [List.append_nil] at hperm
      rw [hissue] at h
      dsimp only at h
      rw [dif_pos ⟨hsorted.2, hsorted.1⟩] at h
      cases hsigned : sign.sign (manifestBody issuer entries) with
      | none =>
        rw [hsigned] at h
        cases h
      | some signature =>
        rw [hsigned] at h
        obtain rfl := Except.ok.inj h
        exact ⟨_, manifestOpen_bytes _, rfl, hsorted.1, fun m => hperm.mem_iff.trans (hmem m)⟩
  · have hcount : (ownEntries issuer (s.elim [] RevocationStore.entries)).length = n := by
      rw [hn, ownEntries, List.length_map, List.countP_eq_length_filter]
    obtain ⟨entries, hissue⟩ := @issueEntries_ok issuer out.length
      (s.elim [] RevocationStore.entries) []
      (by rwa [hcount, List.length_nil, Nat.add_zero])
      (by rwa [hcount, List.length_nil, Nat.add_zero])
    have hsorted := issueEntries_ascending hissue List.Pairwise.nil (Nat.zero_le _)
    obtain ⟨signature, hsigned⟩ := Option.isSome_iff_exists.1 (hsigns (manifestBody issuer entries))
    have hmin : ¬out.length < manifestLen 0 := by
      rw [manifestLen] at hcap ⊢
      omega
    rw [if_neg hmin, hissue]
    dsimp only
    rw [dif_pos ⟨hsorted.2, hsorted.1⟩, hsigned]
    exact ⟨_, rfl⟩

end Issued

/-- A store of two entries by issuer 1, the second pair first, and one by issuer 2. -/
def threeEntries : RevocationStore :=
  ⟨[⟨⟨7⟩, 9, 1, 21, true, 0, 21, 0⟩, ⟨⟨7⟩, 8, 2, 22, false, 0, 22, 0⟩,
    ⟨⟨7⟩, 8, 1, 23, false, 0, 23, 0⟩], 4, 3, 1, false, ⟨0⟩, [], 0, none, [], 0, none, none⟩

/-- The hypotheses are met: issuer 1's manifest is issued, and opens to its two pairs. -/
theorem issueInto_publishes_threeEntries :
    ∃ bytes rec, issueInto 1 (some threeEntries) acceptingSign (List.replicate 300 0) = .ok bytes ∧
      manifestOpen bytes = .ok rec ∧ (⟨⟨7⟩, 9, 21, true⟩ : ManifestEntry) ∈ rec.entries := by
  obtain ⟨hopens, hissues⟩ := @issueInto_publishes 1 (some threeEntries) acceptingSign
    (List.replicate 300 0)
    (fun t ht => by obtain rfl := Option.some.inj ht; decide)
    (fun t ht => by obtain rfl := Option.some.inj ht; decide)
  obtain ⟨bytes, hissue⟩ := hissues 2 (by decide) (by decide) (by rw [List.length_replicate]; decide)
    fun _ => rfl
  obtain ⟨rec, hopen, -, -, hmem⟩ := hopens bytes hissue
  exact ⟨bytes, rec, hissue, hopen, (hmem _).2
    ⟨threeEntries, rfl, ⟨⟨7⟩, 9, 1, 21, true, 0, 21, 0⟩, by decide, rfl, rfl⟩⟩

end Chain
end Fuzznet
