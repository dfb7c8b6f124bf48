/-
# The flight recorder

`log/ring.c`: every entry a process makes, as records of `log/entry.c` behind their two-byte
lengths, in 256 KiB used round.  A record is put behind those held, and the oldest go until it
fits.

A ring stands for the records it holds (`Ring.Holds`): its used bytes, from its start round,
are those records framed one behind the other.  An eviction takes the first of them
(`holds_evict`), and a put leaves the newest that fit of those held and the one put
(`holds_keep`).  So after any puts the ring holds the longest run of the last records that
fits, a walk reports their entries and the two spans are a dump of them
(`ring_holds_newest`).  A dump is read record by record into a ring that was reset, but for
one longer than a ring, which is refused before that (`ringLoad_settles_iff`).
-/

import Fuzznet.Lib.Newest
import Fuzznet.Lib.Round
import Fuzznet.Log.Canonical

namespace Fuzznet
namespace Log

open Wire Lib

/-- `FZN_RING_BYTES`. -/
def ringBytes : ℕ := 256 * 1024

/-- `fzn_ring_err_t`. -/
inductive RingErr
  | ok
  | malformed
  deriving DecidableEq, Repr

/-- `fzn_ring_t`. -/
structure Ring where
  bytes : Bytes
  start : ℕ
  used : ℕ
  held : ℕ
  evicted : UInt64

/-- `fzn_ring_init`. -/
def ringInit : Ring := ⟨List.replicate ringBytes 0, 0, 0, 0, 0⟩

/-- `read_at`: `n` bytes at an offset from the start. -/
@[grind =] def Ring.readAt (r : Ring) (off n : ℕ) : Bytes :=
  roundLoad r.bytes ((r.start + off) % ringBytes) n

/-- `write_at`. -/
def Ring.writeAt (r : Ring) (off : ℕ) (vs : Bytes) : Ring :=
  { r with bytes := roundStore r.bytes ((r.start + off) % ringBytes) vs }

/-- `length_at`. -/
@[grind =] def Ring.lengthAt (r : Ring) (off : ℕ) : ℕ := getBe (r.readAt off 2) 0 2

/-- `evict`: the oldest record goes. -/
def Ring.evict (r : Ring) : Ring :=
  let n := 2 + r.lengthAt 0
  { r with
    start := (r.start + n) % ringBytes
    used := r.used - n
    held := r.held - 1
    evicted := r.evicted + 1 }

/-- The loop of `keep`, which evicts each record held at most once. -/
def Ring.makeRoom : ℕ → Ring → ℕ → Ring
  | 0, r, _ => r
  | fuel + 1, r, need =>
    if ringBytes - r.used < need then Ring.makeRoom fuel r.evict need else r

/-- `keep`. -/
def Ring.keep (r : Ring) (record : Bytes) : Ring :=
  let room := r.makeRoom r.held (2 + record.length)
  let r' := (room.writeAt room.used (putBe 2 record.length)).writeAt (room.used + 2) record
  { r' with used := r'.used + (2 + record.length), held := r'.held + 1 }

/-- `fzn_ring_put`. -/
def ringPut (r : Ring) (e : Entry) : RingErr × Ring :=
  match entryPack e recordMax with
  | .error _ => (.malformed, r)
  | .ok record => (.ok, r.keep record)

/-- The loop of `fzn_ring_walk`: a record takes two bytes or more. -/
def Ring.walkFrom (r : Ring) : ℕ → ℕ → List Entry
  | 0, _ => []
  | fuel + 1, off =>
    if off < r.used then
      match entryUnpack (r.readAt (off + 2) (r.lengthAt off)) with
      | none => []
      | some e => e :: r.walkFrom fuel (off + (2 + r.lengthAt off))
    else []

/-- `fzn_ring_walk`: the entries reported, whose number it returns. -/
def ringWalk (r : Ring) : List Entry := r.walkFrom r.used 0

/-- `fzn_ring_spans`. -/
def ringSpans (r : Ring) : Bytes × Bytes :=
  let tail := ringBytes - r.start
  if r.used ≤ tail then (load r.bytes r.start r.used, [])
  else (load r.bytes r.start tail, load r.bytes 0 (r.used - tail))

/-- The loop of `fzn_ring_load`; none is a dump that is not one. -/
def loadFrom (dump : Bytes) : ℕ → ℕ → Ring → Option Ring
  | 0, _, r => some r
  | fuel + 1, off, r =>
    if off < dump.length then
      if dump.length - off < 2 then none
      else
        let n := getBe dump off 2
        let record := load dump (off + 2) n
        if dump.length - off - 2 < n ∨ entryUnpack record = none then none
        else loadFrom dump fuel (off + (2 + n)) (r.keep record)
    else some r

/-- `fzn_ring_load`. -/
@[grind =] def ringLoad (r : Ring) (dump : Bytes) : RingErr × Ring :=
  if ringBytes < dump.length then (.malformed, r)
  else
    match loadFrom dump dump.length 0 ringInit with
    | none => (.malformed, ringInit)
    | some r' => (.ok, r')

/-! ## What a ring holds -/

/-- A record behind its length. -/
@[grind =] def framed (record : Bytes) : Bytes := putBe 2 record.length ++ record

/-- What a record takes of a ring. -/
@[grind =] def framedSize (record : Bytes) : ℕ := 2 + record.length

theorem length_framed (record : Bytes) : (framed record).length = framedSize record := by
  rw [framed, List.length_append, length_putBe, framedSize]

theorem length_flatMap_framed (records : List Bytes) :
    (records.flatMap framed).length = weight framedSize records := by
  rw [List.length_flatMap, weight]
  congr 1
  exact List.map_congr_left fun record _ => length_framed record

/-- **The ring holds these records**, oldest first: they are its used bytes, framed. -/
structure Ring.Holds (r : Ring) (records : List Bytes) : Prop where
  size : r.bytes.length = ringBytes
  start : r.start < ringBytes
  used : r.used = weight framedSize records
  fits : r.used ≤ ringBytes
  content : roundLoad r.bytes r.start r.used = records.flatMap framed
  held : r.held = records.length
  short : ∀ record ∈ records, record.length < 65536

section Holds

variable {r : Ring} {record : Bytes} {records front back : List Bytes} {es : List Entry}

theorem holds_init : ringInit.Holds [] where
  size := List.length_replicate
  start := by decide
  used := rfl
  fits := Nat.zero_le _
  content := by
    show roundLoad (List.replicate ringBytes 0) 0 0 = []
    rw [roundLoad, Nat.min_zero, Nat.sub_zero, load, List.take_zero]
    rfl
  held := rfl
  short := fun _ h => absurd h List.not_mem_nil

theorem Ring.Holds.start_lt (h : r.Holds records) : r.start < r.bytes.length := by
  rw [h.size]
  exact h.start

theorem Ring.Holds.place_lt (h : r.Holds records) (off : ℕ) :
    (r.start + off) % ringBytes < r.bytes.length := by
  rw [h.size]
  exact Nat.mod_lt _ (by decide)

/-- Bytes in use are read where they stand in the content. -/
theorem Ring.Holds.readAt (h : r.Holds records) {off n : ℕ} (hin : off + n ≤ r.used) :
    r.readAt off n = load (records.flatMap framed) off n := by
  have hfits := h.fits
  have hsize := h.size
  have hcut := roundLoad_add h.start_lt (m := off) (n := r.used - off) (by omega)
  have hcut' := roundLoad_add (h.place_lt off) (m := n) (n := r.used - off - n) (by omega)
  rw [hsize, show off + (r.used - off) = r.used by omega, h.content] at hcut
  rw [show n + (r.used - off - n) = r.used - off by omega] at hcut'
  rw [Ring.readAt, load, hcut, List.drop_left' (length_roundLoad h.start_lt (by omega)), hcut',
    List.take_left' (length_roundLoad (h.place_lt off) (by omega))]

/-- A record is found behind those in front of it. -/
theorem Ring.Holds.read_record (h : r.Holds (front ++ record :: back)) :
    r.lengthAt (weight framedSize front) = record.length ∧
      r.readAt (weight framedSize front + 2) record.length = record := by
  have hused := h.used
  rw [weight_append, weight_cons, framedSize] at hused
  have hshort := h.short record (List.mem_append_right _ List.mem_cons_self)
  have hcontent : (front ++ record :: back).flatMap framed =
      front.flatMap framed ++ (putBe 2 record.length ++ (record ++ back.flatMap framed)) := by
    rw [List.flatMap_append, List.flatMap_cons, framed, List.append_assoc]
  have hfront := length_flatMap_framed front
  constructor
  · rw [Ring.lengthAt, h.readAt (by omega), hcontent,
      load_append_self hfront (length_putBe 2 _)]
    simpa using getBe_putBe_of_lt [] (show record.length < 256 ^ 2 by omega)
  · rw [h.readAt (by omega), hcontent, ← List.append_assoc]
    exact load_append_self (by rw [List.length_append, hfront, length_putBe]) rfl

/-- **An eviction takes the oldest record.** -/
theorem holds_evict (h : r.Holds (record :: records)) :
    r.evict.Holds records ∧ r.evict.evicted = r.evicted + 1 := by
  have hfirst : r.Holds ([] ++ record :: records) := h
  have hlen : r.lengthAt 0 = record.length := hfirst.read_record.1
  have hused := h.used
  have hfits := h.fits
  rw [weight_cons, framedSize] at hused
  refine ⟨⟨h.size, Nat.mod_lt _ (by decide), ?_, ?_, ?_, ?_, fun record' hin =>
    h.short record' (List.mem_cons_of_mem _ hin)⟩, rfl⟩
  · show r.used - (2 + r.lengthAt 0) = _
    omega
  · show r.used - (2 + r.lengthAt 0) ≤ _
    omega
  · show roundLoad r.bytes ((r.start + (2 + r.lengthAt 0)) % ringBytes)
      (r.used - (2 + r.lengthAt 0)) = _
    have hcut := roundLoad_add h.start_lt (m := 2 + r.lengthAt 0)
      (n := r.used - (2 + r.lengthAt 0)) (by rw [h.size]; omega)
    rw [show 2 + r.lengthAt 0 + (r.used - (2 + r.lengthAt 0)) = r.used by omega, h.content,
      h.size, List.flatMap_cons] at hcut
    refine (List.append_inj_right hcut ?_).symm
    rw [length_framed, length_roundLoad h.start_lt (by rw [h.size]; omega), hlen, framedSize]
  · show r.held - 1 = _
    rw [h.held, List.length_cons, Nat.add_sub_cancel]

/-- **The oldest go until there is room**, and those left are the newest that fit with the
one to come. -/
theorem holds_makeRoom (h : r.Holds records) (hroom : framedSize record ≤ ringBytes) :
    ∃ kept, (r.makeRoom records.length (framedSize record)).Holds kept ∧
      kept ++ [record] = newest ringBytes framedSize (records ++ [record]) ∧
      (r.makeRoom records.length (framedSize record)).used + framedSize record ≤ ringBytes ∧
      (r.makeRoom records.length (framedSize record)).evicted + UInt64.ofNat kept.length =
        r.evicted + UInt64.ofNat records.length := by
  induction records generalizing r with
  | nil =>
    have hused : r.used = 0 := h.used
    refine ⟨[], h, ?_, ?_, rfl⟩
    · rw [List.nil_append, newest_of_fits]
      rwa [weight_cons, weight_nil, Nat.add_zero]
    · show r.used + _ ≤ _
      rwa [hused, Nat.zero_add]
  | cons oldest records ih =>
    have hused := h.used
    rw [List.length_cons, Ring.makeRoom]
    split_ifs with hfull
    · obtain ⟨hevict, hcount⟩ := holds_evict h
      obtain ⟨kept, hkept, hnewest, hfree, hevicted⟩ := ih hevict
      refine ⟨kept, hkept, ?_, hfree, ?_⟩
      · rw [hnewest, newest_drop_until (by omega)]
      · rw [hevicted, hcount, Nat.add_comm records.length, UInt64.ofNat_add, UInt64.add_assoc]
        rfl
    · have hfits := h.fits
      refine ⟨oldest :: records, h, ?_, by omega, rfl⟩
      rw [newest_of_fits]
      rw [weight_append, weight_cons (l := []), weight_nil]
      omega

/-- A record written behind the bytes in use. -/
theorem Ring.Holds.write_record (h : r.Holds records)
    (hfree : r.used + framedSize record ≤ ringBytes) :
    ((r.writeAt r.used (putBe 2 record.length)).writeAt (r.used + 2) record).bytes.length =
        ringBytes ∧
      roundLoad ((r.writeAt r.used (putBe 2 record.length)).writeAt (r.used + 2) record).bytes
        r.start (r.used + framedSize record) = (records ++ [record]).flatMap framed := by
  rw [framedSize] at hfree
  have hsize := h.size
  have hprefix := length_putBe 2 record.length
  have hone : (r.writeAt r.used (putBe 2 record.length)).bytes.length = ringBytes := by
    rw [Ring.writeAt, length_roundStore (h.place_lt r.used) (by omega), hsize]
  have htwo : (r.start + (r.used + 2)) % ringBytes <
      (r.writeAt r.used (putBe 2 record.length)).bytes.length := by
    rw [hone]
    exact Nat.mod_lt _ (by decide)
  have hstart : r.start < (r.writeAt r.used (putBe 2 record.length)).bytes.length := by
    rw [hone]
    exact h.start
  have hfirst := roundLoad_roundStore_append h.start_lt (n := r.used)
    (show r.used + (putBe 2 record.length).length ≤ r.bytes.length by omega)
  have hsecond := roundLoad_roundStore_append hstart (n := r.used + 2)
    (show r.used + 2 + record.length ≤ _ by omega)
  rw [ hprefix, hsize, h.content] at hfirst
  rw [hone] at hsecond
  constructor
  · exact (length_roundStore htwo (by omega)).trans hone
  · rw [framedSize, ← Nat.add_assoc]
    refine hsecond.trans ?_
    rw [Ring.writeAt, hfirst, List.flatMap_append, List.flatMap_singleton, framed,
      List.append_assoc]

/-- **A record is put behind those held**, of which the newest that fit with it are left. -/
theorem holds_keep (h : r.Holds records) (hroom : framedSize record ≤ ringBytes)
    (hshort : record.length < 65536) :
    (r.keep record).Holds (newest ringBytes framedSize (records ++ [record])) ∧
      (r.keep record).evicted +
        UInt64.ofNat (newest ringBytes framedSize (records ++ [record])).length =
          r.evicted + UInt64.ofNat (records.length + 1) := by
  obtain ⟨kept, hkept, hnewest, hfree, hevicted⟩ := holds_makeRoom h hroom
  rw [← hnewest]
  rw [Ring.keep, h.held, ← framedSize]
  set room := r.makeRoom records.length (framedSize record)
  obtain ⟨hsize, hcontent⟩ := hkept.write_record hfree
  refine ⟨⟨hsize, hkept.start, ?_, hfree, hcontent, ?_, ?_⟩, ?_⟩
  · show room.used + framedSize record = _
    rw [hkept.used, weight_append, weight_cons, weight_nil, Nat.add_zero]
  · show room.held + 1 = _
    rw [hkept.held, List.length_append, List.length_singleton]
  · intro record' hin
    rcases List.mem_append.1 hin with hin | hin
    · exact hkept.short record' hin
    · rwa [List.mem_singleton.1 hin]
  · show room.evicted + _ = _
    rw [List.length_append, List.length_singleton, UInt64.ofNat_add, ← UInt64.add_assoc, hevicted,
      UInt64.ofNat_add, UInt64.add_assoc]

/-- **A walk reports the records held**, where each is a record. -/
theorem walkFrom_eq (h : r.Holds (front ++ back)) {off fuel : ℕ}
    (hoff : weight framedSize front = off) (hfuel : weight framedSize back ≤ fuel)
    (hread : List.Forall₂ (fun record e => entryUnpack record = some e) back es) :
    r.walkFrom fuel off = es := by
  induction fuel generalizing front back es off with
  | zero =>
    cases hread with
    | nil => rfl
    | cons =>
      rw [weight_cons, framedSize] at hfuel
      omega
  | succ fuel ih =>
    have hused := h.used
    rw [weight_append] at hused
    rw [Ring.walkFrom]
    cases hread with
    | nil =>
      rw [weight_nil] at hused
      rw [if_neg (by omega)]
    | @cons record e back es hone hread =>
      obtain ⟨hlen, hrecord⟩ := h.read_record
      rw [weight_cons, framedSize] at hused hfuel
      rw [hoff] at hlen hrecord
      rw [if_pos (by omega), hlen, hrecord, hone]
      dsimp only
      have hnext : r.Holds ((front ++ [record]) ++ back) := by rwa [List.append_assoc]
      rw [ih hnext (by
        rw [weight_append, weight_cons, weight_nil, framedSize, hoff]
        omega) (by omega) hread]

theorem ringWalk_eq (h : r.Holds records)
    (hread : List.Forall₂ (fun record e => entryUnpack record = some e) records es) :
    ringWalk r = es :=
  walkFrom_eq (show r.Holds ([] ++ records) from h) rfl (Nat.le_of_eq h.used.symm) hread

/-- **The spans are the records held**, framed. -/
theorem ringSpans_append (h : r.Holds records) :
    (ringSpans r).1 ++ (ringSpans r).2 = records.flatMap framed := by
  have hstart := h.start
  rw [← h.content, roundLoad, h.size, ringSpans]
  split_ifs with htail
  · rw [Nat.min_eq_right htail, Nat.sub_self, load, load, List.take_zero]
  · rw [Nat.min_eq_left (by omega)]

end Holds

/-! ## Puts -/

/-- The ring after these puts, from an empty one. -/
def ringRun (es : List Entry) : Ring := es.foldl (fun r e => (ringPut r e).2) ringInit

/-- What an entry takes of a ring. -/
def entrySize (e : Entry) : ℕ := framedSize (entryBytes e)

section Puts

variable {r : Ring} {e : Entry} {es : List Entry}

theorem entrySize_le (h : entryOk e = true) : entrySize e ≤ ringBytes ∧
    (entryBytes e).length < 65536 := by
  obtain ⟨-, hmax⟩ := recordSize_of_fits (fits_of_entryOk h)
  rw [recordMax] at hmax
  rw [entrySize, framedSize, length_entryBytes, ringBytes]
  omega

theorem ringPut_of_ok (h : entryOk e = true) : ringPut r e = (.ok, r.keep (entryBytes e)) := by
  have hpack : entryPack e recordMax = .ok (entryBytes e) :=
    entryPack_eq_ok_iff.2 ⟨h, (recordSize_of_fits (fits_of_entryOk h)).2, rfl⟩
  rw [ringPut, hpack]

/-- An entry that cannot be packed changes nothing. -/
theorem ringPut_of_not_ok (h : entryOk e = false) : ringPut r e = (.malformed, r) := by
  rw [ringPut, entryPack, if_pos h]

/-- **After any puts** the ring holds the newest of the entries that could be packed. -/
theorem holds_ringRun (es : List Entry) :
    (ringRun es).Holds ((newest ringBytes entrySize (es.filter entryOk)).map entryBytes) ∧
      (ringRun es).evicted + UInt64.ofNat (newest ringBytes entrySize (es.filter entryOk)).length =
        UInt64.ofNat (es.filter entryOk).length := by
  induction es using List.reverseRecOn with
  | nil => exact ⟨holds_init, rfl⟩
  | append_singleton es e ih =>
    obtain ⟨hheld, hevicted⟩ := ih
    have hstep : ringRun (es ++ [e]) = (ringPut (ringRun es) e).2 := by
      rw [ringRun, List.foldl_append]
      rfl
    rw [hstep, List.filter_append, List.filter_singleton]
    cases hok : entryOk e with
    | false =>
      rw [ringPut_of_not_ok hok, cond_false, List.append_nil]
      exact ⟨hheld, hevicted⟩
    | true =>
      obtain ⟨hroom, hshort⟩ := entrySize_le hok
      obtain ⟨hkeep, hcount⟩ := holds_keep hheld hroom hshort
      have hmap := calc
        newest ringBytes framedSize
            ((newest ringBytes entrySize (es.filter entryOk)).map entryBytes ++ [entryBytes e])
          = newest ringBytes framedSize
              ((newest ringBytes entrySize (es.filter entryOk) ++ [e]).map entryBytes) := by
            rw [List.map_append, List.map_singleton]
        _ = (newest ringBytes entrySize
              (newest ringBytes entrySize (es.filter entryOk) ++ [e])).map entryBytes :=
            newest_map entryBytes _
        _ = (newest ringBytes entrySize (es.filter entryOk ++ [e])).map entryBytes := by
            rw [← newest_append_singleton]
      rw [hmap] at hkeep hcount
      rw [List.length_map, List.length_map, UInt64.ofNat_add, ← UInt64.add_assoc,
        hevicted] at hcount
      rw [ringPut_of_ok hok, cond_true, List.length_append, UInt64.ofNat_add]
      exact ⟨hkeep, hcount⟩

end Puts

/-! ## Dumps -/

/-- Each of these records unpacks to its entry. -/
def Unpacking (records : List Bytes) (es : List Entry) : Prop :=
  List.Forall₂ (fun record e => entryUnpack record = some e) records es

/-- The ring holds nothing. -/
def Ring.Empty (r : Ring) : Prop := r.used = 0 ∧ r.held = 0

section Dump

variable {r r' : Ring} {dump record : Bytes} {records front back : List Bytes} {e : Entry}
  {es es' : List Entry} {off fuel : ℕ}

theorem unpacking_concat (h : Unpacking records es) (hread : entryUnpack record = some e) :
    Unpacking (records ++ [record]) (es ++ [e]) :=
  List.rel_append h (.cons hread .nil)

theorem weight_concat (records : List Bytes) (record : Bytes) :
    weight framedSize (records ++ [record]) = weight framedSize records + (2 + record.length) := by
  rw [weight_append, weight_cons, weight_nil, Nat.add_zero, framedSize]

/-- A record that fits behind those held goes in without an eviction. -/
theorem holds_keep_of_fits (h : r.Holds records)
    (hfits : weight framedSize (records ++ [record]) ≤ ringBytes) (hshort : record.length < 65536) :
    (r.keep record).Holds (records ++ [record]) := by
  have hkeep := (holds_keep h (by rw [weight_concat] at hfits; rw [framedSize]; omega) hshort).1
  rwa [newest_of_fits hfits] at hkeep

/-- **A dump that is loaded is the records the ring then holds**, framed, each of which
unpacks. -/
theorem loadFrom_some (hsize : dump.length ≤ ringBytes) (hoff : off ≤ dump.length)
    (hfuel : dump.length ≤ off + fuel) (h : r.Holds records)
    (hdump : dump.take off = records.flatMap framed) (hread : Unpacking records es)
    (hload : loadFrom dump fuel off r = some r') :
    ∃ records' es', r'.Holds records' ∧ dump = records'.flatMap framed ∧
      Unpacking records' es' := by
  induction fuel generalizing off r records es with
  | zero =>
    obtain rfl := Option.some.inj hload
    rw [List.take_of_length_le (by omega)] at hdump
    exact ⟨records, es, h, hdump, hread⟩
  | succ fuel ih =>
    rw [loadFrom] at hload
    dsimp only at hload
    split_ifs at hload with hmore hprefix hbad
    · rw [not_or] at hbad
      obtain ⟨hwhole, hunpacks⟩ := hbad
      obtain ⟨e, he⟩ := Option.ne_none_iff_exists'.1 hunpacks
      have hn := getBe_lt dump off 2
      have hlen : (load dump (off + 2) (getBe dump off 2)).length = getBe dump off 2 :=
        length_load (by omega)
      have hnext : dump.take (off + (2 + getBe dump off 2)) =
          (records ++ [load dump (off + 2) (getBe dump off 2)]).flatMap framed := by
        rw [List.flatMap_append, List.flatMap_singleton, ← hdump, framed, hlen,
          putBe_getBe (by omega), List.take_add]
        exact congrArg _ (load_append_load dump off 2 _).symm
      have hweight := congrArg List.length hnext
      rw [length_flatMap_framed, List.length_take] at hweight
      refine ih (by omega) (by omega) (holds_keep_of_fits h (by omega) (by omega)) hnext
        (unpacking_concat hread he) hload
    · obtain rfl := Option.some.inj hload
      rw [List.take_of_length_le (by omega)] at hdump
      exact ⟨records, es, h, hdump, hread⟩

/-- **Records framed are loaded**, where they fit a ring and each unpacks. -/
theorem loadFrom_framed (hsize : ((front ++ back).flatMap framed).length ≤ ringBytes)
    (hshort : ∀ record ∈ back, record.length < 65536) (h : r.Holds front)
    (hread : Unpacking back es) (hfuel : weight framedSize back ≤ fuel) :
    ∃ r', loadFrom ((front ++ back).flatMap framed) fuel (weight framedSize front) r = some r' ∧
      r'.Holds (front ++ back) := by
  induction fuel generalizing front back es r with
  | zero =>
    cases hread with
    | nil => exact ⟨r, rfl, by rwa [List.append_nil]⟩
    | cons =>
      rw [weight_cons, framedSize] at hfuel
      omega
  | succ fuel ih =>
    have hall : ((front ++ back).flatMap framed).length =
        weight framedSize front + weight framedSize back := by
      rw [length_flatMap_framed, weight_append]
    rw [loadFrom]
    cases hread with
    | nil =>
      rw [if_neg (by rw [hall, weight_nil]; omega)]
      exact ⟨r, rfl, by rwa [List.append_nil]⟩
    | @cons record e back es hone hread =>
      have hlen := hshort record List.mem_cons_self
      have hfront := length_flatMap_framed front
      have hcontent : (front ++ record :: back).flatMap framed = front.flatMap framed ++
          (putBe 2 record.length ++ (record ++ back.flatMap framed)) := by
        rw [List.flatMap_append, List.flatMap_cons, framed, List.append_assoc]
      have hn : getBe ((front ++ record :: back).flatMap framed) (weight framedSize front) 2 =
          record.length :=
        getBe_of_drop (by rw [hcontent, List.drop_left' hfront]) (by omega)
      have hrecord : load ((front ++ record :: back).flatMap framed)
          (weight framedSize front + 2) record.length = record := by
        rw [hcontent, ← List.append_assoc]
        exact load_append_self (by rw [List.length_append, hfront, length_putBe]) rfl
      rw [weight_cons, framedSize] at hall hfuel
      have hnext : (front ++ record :: back) = (front ++ [record]) ++ back := by
        rw [List.append_assoc]
        rfl
      have hfits : weight framedSize (front ++ [record]) ≤ ringBytes := by
        rw [weight_concat]
        omega
      rw [if_pos (by omega), if_neg (by omega)]
      dsimp only
      rw [hn, hrecord, hone,
        if_neg (by rw [not_or]; exact ⟨by omega, Option.some_ne_none e⟩),
        ← weight_concat front record, hnext]
      rw [hnext] at hsize
      exact ih hsize (fun record hin => hshort record (List.mem_cons_of_mem _ hin))
        (holds_keep_of_fits h hfits hlen) hread (by omega)

theorem ringLoad_framed (hsize : (records.flatMap framed).length ≤ ringBytes)
    (hshort : ∀ record ∈ records, record.length < 65536) (hread : Unpacking records es) :
    ∃ r', ringLoad r (records.flatMap framed) = (.ok, r') ∧ r'.Holds records := by
  have hfuel : weight framedSize records ≤ (records.flatMap framed).length :=
    (length_flatMap_framed records).ge
  obtain ⟨r', hload, hholds⟩ := loadFrom_framed (show (([] ++ records).flatMap framed).length ≤
    ringBytes from hsize) hshort holds_init hread hfuel
  rw [List.nil_append, weight_nil] at hload
  exact ⟨r', by rw [ringLoad, if_neg (by omega), hload], hholds⟩

theorem ringLoad_ok (h : ringLoad r dump = (.ok, r')) : ∃ records es, r'.Holds records ∧
    dump = records.flatMap framed ∧ Unpacking records es := by
  unfold ringLoad at h
  split_ifs at h with hlong
  · cases h
  · split at h
    next => cases h
    next r'' hload =>
      obtain rfl := (Prod.mk.inj h).2
      exact loadFrom_some (by omega) (Nat.zero_le _) (by omega) holds_init rfl .nil hload

/-- **What a dump does to a ring**: it is loaded, and then the ring walks and dumps what was
in it, or it is refused and the ring is empty. -/
def LoadSettles (r : Ring) (dump : Bytes) : Prop :=
  match ringLoad r dump with
  | (.ok, r') => ∃ records es, dump = records.flatMap framed ∧ Unpacking records es ∧
      ringWalk r' = es ∧ r'.held = es.length ∧ (ringSpans r').1 ++ (ringSpans r').2 = dump
  | (.malformed, r') => r'.Empty

/-- **A dump longer than a ring is refused before the ring is reset**, and no other. -/
theorem ringLoad_settles_iff (r : Ring) (dump : Bytes) :
    LoadSettles r dump ↔ dump.length ≤ ringBytes ∨ r.Empty := by
  unfold LoadSettles
  rcases Nat.lt_or_ge ringBytes dump.length with hlong | hfits
  · rw [ringLoad, if_pos hlong]
    exact ⟨Or.inr, fun h => h.resolve_left (Nat.not_le.2 hlong)⟩
  · refine iff_of_true ?_ (Or.inl hfits)
    cases hload : ringLoad r dump with
    | mk err r' =>
      cases err with
      | ok =>
        obtain ⟨records, es, hholds, rfl, hread⟩ := ringLoad_ok hload
        exact ⟨records, es, rfl, hread, ringWalk_eq hholds hread,
          hholds.held.trans hread.length_eq, ringSpans_append hholds⟩
      | malformed =>
        rw [ringLoad, if_neg (Nat.not_lt.2 hfits)] at hload
        split at hload
        · obtain rfl := (Prod.mk.inj hload).2
          exact ⟨rfl, rfl⟩
        · cases hload

end Dump

/-- **The flight recorder holds the newest entries that fit.**  After any puts, `kept` is the
longest run of the last entries packed that fits the ring; a walk reports those, oldest first,
and their number is what is held; what is used is their size; those held and those evicted
are, as counts of 64 bits, the entries put; and the spans, loaded anywhere, are a ring with the
same walk.  Any other dump is loaded whole or leaves the ring empty, unless it is longer than
a ring and the ring was not empty. -/
theorem ring_holds_newest (es : List Entry) :
    (∃ kept, kept <:+ es.filter entryOk ∧
      weight entrySize kept ≤ ringBytes ∧
      (∀ s, s <:+ es.filter entryOk → weight entrySize s ≤ ringBytes → s <:+ kept) ∧
      ringWalk (ringRun es) = kept ∧ (ringRun es).held = kept.length ∧
      (ringRun es).used = weight entrySize kept ∧
      (ringRun es).evicted + UInt64.ofNat (ringRun es).held =
        UInt64.ofNat (es.filter entryOk).length ∧
      ∀ r, ∃ r', ringLoad r ((ringSpans (ringRun es)).1 ++ (ringSpans (ringRun es)).2) =
        (.ok, r') ∧ ringWalk r' = kept) ∧
    ∀ r dump, LoadSettles r dump ↔ dump.length ≤ ringBytes ∨ r.Empty := by
  refine ⟨?_, ringLoad_settles_iff⟩
  obtain ⟨hholds, hevicted⟩ := holds_ringRun es
  have hfits : weight entrySize (newest ringBytes entrySize (es.filter entryOk)) ≤ ringBytes :=
    weight_newest_le _
  have hsuffix : newest ringBytes entrySize (es.filter entryOk) <:+ es.filter entryOk :=
    newest_suffix _
  set kept := newest ringBytes entrySize (es.filter entryOk)
  have hread : Unpacking (kept.map entryBytes) kept := by
    refine List.forall₂_map_left_iff.2 (List.forall₂_same.2 fun e he => ?_)
    have hok := (List.mem_filter.1 (hsuffix.subset he)).2
    exact entryUnpack_of_pack (entryPack_eq_ok_iff.2
      ⟨hok, (recordSize_of_fits (fits_of_entryOk hok)).2, rfl⟩)
  have hused : weight framedSize (kept.map entryBytes) = weight entrySize kept :=
    weight_map entryBytes kept
  have hheld : (ringRun es).held = kept.length := hholds.held.trans (List.length_map _)
  refine ⟨kept, hsuffix, hfits, fun s hs => suffix_newest hs, ringWalk_eq hholds hread, hheld,
    hholds.used.trans hused, by rwa [hheld], fun r => ?_⟩
  rw [ringSpans_append hholds]
  obtain ⟨r', hload, hholds'⟩ := ringLoad_framed (r := r)
    (by rwa [length_flatMap_framed, hused]) hholds.short hread
  exact ⟨r', hload, ringWalk_eq hholds' hread⟩

/-- A dump a byte longer than a ring leaves the ring it is loaded into as it was. -/
theorem ringLoad_long_keeps : ¬ ∀ es dump, LoadSettles (ringRun es) dump := by
  intro hall
  obtain ⟨dump, hlong⟩ : ∃ dump : Bytes, ringBytes < dump.length :=
    ⟨List.replicate (ringBytes + 1) 0, by
      rw [List.length_replicate]
      exact Nat.lt_succ_self _⟩
  rcases (ringLoad_settles_iff _ _).1 (hall [userEntry [97]] dump)
    with hfits | hempty
  · omega
  · have hholds := (holds_ringRun [userEntry [97]]).1
    have hone : entryOk (userEntry [97]) = true := by decide
    have hok : [userEntry [97]].filter entryOk = [userEntry [97]] := by decide
    have hsize := (entrySize_le hone).1
    have hnewest : newest ringBytes entrySize [userEntry [97]] = [userEntry [97]] :=
      newest_of_fits (by rwa [weight_cons, weight_nil, Nat.add_zero])
    rw [hok, hnewest] at hholds
    exact absurd (hholds.held.symm.trans hempty.2) (by decide)

end Log
end Fuzznet
