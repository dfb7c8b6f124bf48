/-
# What a node holds of an append-only kind

`node/buckets.c`: items of a kind, a subject and a month are kept in a bucket, each under
its id, the hash of its bytes.  A bucket's row holds how many ids it has and their sum
modulo `2^256`, and the ids themselves stand in chunk rows of 64.  A row is found under the
hash of a domain, the kind and what it is of:

| row | name |
| --- | --- |
| bucket | `fuzznet.bucket`, kind, subject, month |
| chunk of ids | `fuzznet.bucket.ids`, kind, subject, month, number |
| gone | `fuzznet.bucket.gone`, kind, subject, month |
| item | `fuzznet.bucket.item`, kind, id |
| by ref | `fuzznet.bucket.byref`, kind, hash of the ref |

`take` writes four rows one after another: the item without its mark, the chunk, the
bucket, and the item with its mark.

A row is a value here and not its bytes: each is written by this file alone and read back
under the name it was written under.
-/

import Fuzznet.Lib.Disk
import Fuzznet.Session.Derive

namespace Fuzznet
namespace Node

open Wire Lib
open Session (bytes32 bytes32_inj bytes32_append_inj)

/-- `fzn_buckets_kind_t`. -/
inductive Kind
  | messages
  | logs
  | pieces
  | records
  deriving DecidableEq, Repr

/-- The byte of a kind. -/
def Kind.byte : Kind → UInt8
  | .messages => 0
  | .logs => 1
  | .pieces => 2
  | .records => 3

/-- The kind of a byte; none from `FZN_BUCKETS_KINDS` on. -/
def Kind.ofByte (b : UInt8) : Option Kind :=
  match b.toNat with
  | 0 => some .messages
  | 1 => some .logs
  | 2 => some .pieces
  | 3 => some .records
  | _ => none

/-- Where a bucket is: a kind, a subject and a month. -/
structure Place where
  kind : Kind
  subject : Bytes32
  month : UInt32
  deriving DecidableEq, Repr

/-- `fzn_buckets_err_t`. -/
inductive BucketsErr
  | ok
  | malformed
  | backend
  | full
  | gone
  | absent
  | large
  deriving DecidableEq, Repr

/-- What an item's row keeps: its bytes, where its kind keeps them, or nothing any more. -/
inductive ItemBody
  | held (item : Bytes)
  | ref (size : ℕ) (name : Bytes)
  | letGo
  deriving DecidableEq, Repr

/-- A row. -/
inductive Row
  | bucket (place : Place) (count : ℕ) (sum : BitVec 256)
  | ids (ids : List Bytes32)
  | gone (place : Place)
  | item (place : Place) (indexed : Bool) (body : ItemBody)
  | byref (kind : Kind) (id : Bytes32) (size : ℕ)
  deriving DecidableEq, Repr

/-- The slots of `fzn_persist_slot_t` the rows are kept in. -/
inductive BucketSlot
  | bucket
  | ids
  | item
  deriving DecidableEq, Repr

/-- The disk under the buckets. -/
abbrev BucketsDisk := Disk (BucketSlot × Bytes32) Row

/-- What a row is of. -/
inductive RowName
  | bucket (place : Place)
  | ids (place : Place) (n : UInt32)
  | gone (place : Place)
  | item (kind : Kind) (id : Bytes32)
  | byref (kind : Kind) (key : Bytes32)
  deriving DecidableEq, Repr

/-- The slot a row is kept in. -/
def RowName.slot : RowName → BucketSlot
  | .bucket _ => .bucket
  | .ids _ _ => .ids
  | .gone _ => .ids
  | .item _ _ => .item
  | .byref _ _ => .ids

/-- `"fuzznet.bucket"`, which every domain begins with. -/
def bucketDomain : Bytes :=
  [0x66, 0x75, 0x7a, 0x7a, 0x6e, 0x65, 0x74, 0x2e, 0x62, 0x75, 0x63, 0x6b, 0x65, 0x74]

/-- A kind, a subject and a month, as they are hashed. -/
def Place.bytes (p : Place) : Bytes := [p.kind.byte] ++ bytes32 p.subject ++ putBe 4 p.month.toNat

/-- What `row_of` hashes: `".ids"`, `".gone"`, `".item"` and `".byref"` behind the domain. -/
def RowName.input : RowName → Bytes
  | .bucket p => bucketDomain ++ p.bytes
  | .ids p n => bucketDomain ++ [0x2e, 0x69, 0x64, 0x73] ++ p.bytes ++ putBe 4 n.toNat
  | .gone p => bucketDomain ++ [0x2e, 0x67, 0x6f, 0x6e, 0x65] ++ p.bytes
  | .item kind id => bucketDomain ++ [0x2e, 0x69, 0x74, 0x65, 0x6d] ++ [kind.byte] ++ bytes32 id
  | .byref kind key =>
    bucketDomain ++ [0x2e, 0x62, 0x79, 0x72, 0x65, 0x66] ++ [kind.byte] ++ bytes32 key

/-- `FZN_BUCKETS_CHUNK`. -/
def chunkIds : ℕ := 64

/-- `FZN_BUCKETS_ITEM_MAX`. -/
def itemMax : ℕ := 4096

/-- `FZN_BUCKETS_REF_MAX`. -/
def refMax : ℕ := 256

/-- `FZN_BUCKETS_LARGE_MAX`. -/
def largeMax : ℕ := 64 * 1024 * 1024

/-- The ids' sum, modulo `2^256`; `sum_add` carries through the 32 bytes. -/
def idSum (ids : List Bytes32) : BitVec 256 := ids.foldr (fun id sum => id + sum) 0

/-- `fzn_bucket_t`. -/
structure BucketView where
  subject : Bytes32
  month : UInt32
  count : ℕ
  digest : Bytes32
  deriving DecidableEq, Repr

section Buckets

variable (hash : HashOps)

/-- `row_of`; a hash that refuses finds no row. -/
def rowOf (name : RowName) : Option (BucketSlot × Bytes32) :=
  (hash.hash name.input).map fun row => (name.slot, row)

/-- A row read under its name. -/
def loadRow (d : BucketsDisk) (name : RowName) : Option Row := (rowOf hash name).bind d.load

/-- A row saved under its name. -/
def saveRow (name : RowName) (row : Row) (d : BucketsDisk) : Bool × BucketsDisk :=
  match rowOf hash name with
  | none => (false, d)
  | some k => d.save k row

/-- `bucket_load`: nothing held, or the count and the sum; an error where the row has no
name or is another's. -/
def bucketLoad (d : BucketsDisk) (p : Place) : Except Unit (Option (ℕ × BitVec 256)) :=
  match rowOf hash (.bucket p) with
  | none => .error ()
  | some k => match d.load k with
    | none => .ok none
    | some (.bucket q count sum) => if q = p then .ok (some (count, sum)) else .error ()
    | some _ => .error ()

/-- What a bucket's digest is of: `"fuzznet.bucket.digest"`, then its row. -/
def digestInput (p : Place) (count : ℕ) (sum : BitVec 256) : Bytes :=
  bucketDomain ++ [0x2e, 0x64, 0x69, 0x67, 0x65, 0x73, 0x74] ++ p.bytes ++ putBe 8 count ++
    bytes32 sum

/-- `fill`. -/
def fill (p : Place) (count : ℕ) (sum : BitVec 256) : Option BucketView :=
  (hash.hash (digestInput p count sum)).map fun digest => ⟨p.subject, p.month, count, digest⟩

/-- A view, where the hash gave one. -/
def filled : Option BucketView → Except BucketsErr BucketView
  | none => .error .backend
  | some view => .ok view

/-- `fzn_buckets_bucket`. -/
def bucketsBucket (d : BucketsDisk) (p : Place) : Except BucketsErr BucketView :=
  match bucketLoad hash d p with
  | .error _ => .error .backend
  | .ok held => filled (fill hash p (held.getD (0, 0)).1 (held.getD (0, 0)).2)

/-- `fzn_buckets_gone`. -/
def bucketsGone (d : BucketsDisk) (p : Place) : Bool :=
  match loadRow hash d (.gone p) with
  | some (.gone q) => decide (q = p)
  | _ => false

/-- What `row_load` takes for a row's body. -/
def ItemBody.fits : ItemBody → Bool
  | .held item => decide (1 ≤ item.length ∧ item.length ≤ itemMax)
  | .ref size name =>
    decide (1 ≤ name.length ∧ name.length ≤ refMax ∧ 1 ≤ size ∧ size ≤ largeMax)
  | .letGo => true

/-- `row_load`. -/
def rowLoad (d : BucketsDisk) (kind : Kind) (id : Bytes32) : Option (Place × Bool × ItemBody) :=
  match loadRow hash d (.item kind id) with
  | some (.item p indexed body) =>
    if p.kind = kind ∧ body.fits = true then some (p, indexed, body) else none
  | _ => none

/-- The number of the chunk that holds position `n`. -/
def chunkNo (n : ℕ) : UInt32 := UInt32.ofNat (n / chunkIds)

/-- `chunk_load`. -/
def chunkLoad (d : BucketsDisk) (p : Place) (n : UInt32) : Option (List Bytes32) :=
  match loadRow hash d (.ids p n) with
  | some (.ids ids) => some ids
  | _ => none

/-! ## Taking an item -/

/-- The item's row with its mark, the last of the four. -/
def takeMarked (p : Place) (id : Bytes32) (body : ItemBody) (d : BucketsDisk) :
    (BucketsErr × Bool) × BucketsDisk :=
  match saveRow hash (.item p.kind id) (.item p true body) d with
  | (false, d) => ((.backend, false), d)
  | (true, d) => ((.ok, true), d)

/-- The id into its chunk, the chunk read so far as it is counted, and then the count. -/
def takeCount (p : Place) (id : Bytes32) (body : ItemBody) (count : ℕ) (sum : BitVec 256)
    (chunk : List Bytes32) (d : BucketsDisk) : (BucketsErr × Bool) × BucketsDisk :=
  match saveRow hash (.ids p (chunkNo count)) (.ids (chunk.take (count % chunkIds) ++ [id])) d with
  | (false, d) => ((.backend, false), d)
  | (true, d) => match saveRow hash (.bucket p) (.bucket p (count + 1) (sum + id)) d with
    | (false, d) => ((.backend, false), d)
    | (true, d) => takeMarked hash p id body d

/-- Counted only where it is not the last id counted. -/
def takeIndex (p : Place) (id : Bytes32) (body : ItemBody) (count : ℕ) (sum : BitVec 256)
    (d : BucketsDisk) : (BucketsErr × Bool) × BucketsDisk :=
  if count = 0 then takeCount hash p id body count sum [] d
  else match chunkLoad hash d p (chunkNo (count - 1)) with
    | none => ((.backend, false), d)
    | some chunk =>
      if chunk.length < (count - 1) % chunkIds + 1 then ((.backend, false), d)
      else if chunk[(count - 1) % chunkIds]? = some id then takeMarked hash p id body d
      else takeCount hash p id body count sum chunk d

/-- An item not held: its row without the mark, the first of the four. -/
def takeNew (p : Place) (id : Bytes32) (body : ItemBody) (d : BucketsDisk) :
    (BucketsErr × Bool) × BucketsDisk :=
  match bucketLoad hash d p with
  | .error _ => ((.backend, false), d)
  | .ok held =>
    if (held.getD (0, 0)).1 / chunkIds ≥ 2 ^ 32 - 1 then ((.full, false), d)
    else match saveRow hash (.item p.kind id) (.item p false body) d with
      | (false, d) => ((.backend, false), d)
      | (true, d) => takeIndex hash p id body (held.getD (0, 0)).1 (held.getD (0, 0)).2 d

/-- `take`: the error, and `*added`. -/
def take (p : Place) (id : Bytes32) (body : ItemBody) (d : BucketsDisk) :
    (BucketsErr × Bool) × BucketsDisk :=
  if bucketsGone hash d p then ((.gone, false), d)
  else match rowLoad hash d p.kind id with
    | some (_, true, .letGo) => takeMarked hash p id body d
    | some (_, true, _) => ((.ok, false), d)
    | _ => takeNew hash p id body d

/-- `fzn_buckets_add`; the id is `fzn_buckets_id`. -/
def bucketsAdd (p : Place) (item : Bytes) (d : BucketsDisk) : (BucketsErr × Bool) × BucketsDisk :=
  if item.length = 0 ∨ item.length > itemMax then ((.malformed, false), d)
  else match hash.hash item with
    | none => ((.malformed, false), d)
    | some id => take hash p id (.held item) d

/-- `fzn_buckets_add_ref`: behind it, what the ref was taken as. -/
def bucketsAddRef (p : Place) (id : Bytes32) (size : ℕ) (ref : Bytes) (d : BucketsDisk) :
    (BucketsErr × Bool) × BucketsDisk :=
  if ref.length = 0 ∨ ref.length > refMax ∨ size = 0 ∨ size > largeMax then ((.malformed, false), d)
  else match take hash p id (.ref size ref) d with
    | ((.ok, added), d) => match hash.hash ref with
      | none => ((.backend, added), d)
      | some key => match saveRow hash (.byref p.kind key) (.byref p.kind id size) d with
        | (false, d) => ((.backend, added), d)
        | (true, d) => ((.ok, added), d)
    | answer => answer

/-! ## One item -/

/-- `fzn_buckets_has`. -/
def bucketsHas (d : BucketsDisk) (kind : Kind) (id : Bytes32) : Bool :=
  (rowLoad hash d kind id).any fun row => row.2.1

/-- `fzn_buckets_ref`: the ref and the size of an item its kind keeps. -/
def bucketsRef (d : BucketsDisk) (kind : Kind) (id : Bytes32) : Except BucketsErr (Bytes × ℕ) :=
  match rowLoad hash d kind id with
  | some (_, true, .ref size name) => .ok (name, size)
  | _ => .error .absent

/-! ## Listing -/

/-- What one turn of `fzn_buckets_ids` reads out of a chunk. -/
def idsTurn (n pos room : ℕ) (chunk : List Bytes32) : List Bytes32 :=
  ((chunk.drop (pos % chunkIds)).take (n - pos)).take room

/-- The loop of `fzn_buckets_ids` from a position; a turn that reads nothing ends it. -/
def idsLoop (d : BucketsDisk) (p : Place) (n : ℕ) : ℕ → ℕ → ℕ → Option (List Bytes32)
  | 0, _, _ => some []
  | fuel + 1, pos, room =>
    if n ≤ pos ∨ room = 0 then some []
    else match chunkLoad hash d p (chunkNo pos) with
      | none => none
      | some chunk =>
        if pos % chunkIds + (idsTurn n pos room chunk).length ≥ chunk.length ∧
            pos % chunkIds + (idsTurn n pos room chunk).length < chunkIds ∧
            pos + (idsTurn n pos room chunk).length < n then none
        else (idsLoop d p n fuel (pos + (idsTurn n pos room chunk).length)
          (room - (idsTurn n pos room chunk).length)).map (idsTurn n pos room chunk ++ ·)

/-- `fzn_buckets_ids`: at most `max` ids from a position, and `*total`. -/
def bucketsIds (d : BucketsDisk) (p : Place) (start max : ℕ) :
    Except BucketsErr (List Bytes32 × ℕ) :=
  match bucketLoad hash d p with
  | .error _ => .error .backend
  | .ok none => .ok ([], 0)
  | .ok (some (count, _)) =>
    if bucketsGone hash d p then .ok ([], 0)
    else match idsLoop hash d p count (count - start) start max with
      | none => .error .backend
      | some ids => .ok (ids, count)

end Buckets

/-! ## Rows and their names -/

theorem byte_injective {kind kind' : Kind} (h : kind.byte = kind'.byte) : kind = kind' := by
  cases kind <;> cases kind' <;> first | rfl | exact absurd h (by decide)

theorem putBe_uint32_inj {a b : UInt32} : putBe 4 a.toNat = putBe 4 b.toNat ↔ a = b := by
  constructor
  · intro h
    have hread : ∀ c : UInt32, getBe (putBe 4 c.toNat) 0 4 = c.toNat := by
      intro c
      have := getBe_putBe_of_lt (n := 4) (v := c.toNat) [] c.toNat_lt
      rwa [List.append_nil] at this
    exact UInt32.toNat_inj.1 (by rw [← hread a, h, hread b])
  · rintro rfl
    rfl

theorem length_placeBytes (p : Place) : p.bytes.length = 37 := by
  simp [Place.bytes, length_putBe]

theorem placeBytes_inj {p q : Place} : p.bytes = q.bytes ↔ p = q := by
  constructor
  · intro h
    unfold Place.bytes at h
    rw [List.append_assoc, List.append_assoc] at h
    obtain ⟨hkind, hrest⟩ := List.append_inj h rfl
    obtain ⟨hsubject, hmonth⟩ := bytes32_append_inj.1 hrest
    obtain ⟨kind, subject, month⟩ := p
    obtain ⟨kind', subject', month'⟩ := q
    obtain rfl := byte_injective (List.cons.inj hkind).1
    obtain rfl : subject = subject' := hsubject
    obtain rfl : month = month' := putBe_uint32_inj.1 hmonth
    rfl
  · rintro rfl
    rfl

theorem length_input (name : RowName) : name.input.length = match name with
    | .bucket _ => 51
    | .ids _ _ => 59
    | .gone _ => 56
    | .item _ _ => 52
    | .byref _ _ => 53 := by
  cases name <;> simp [RowName.input, bucketDomain, length_placeBytes, length_putBe]

/-- **Two rows of one name are one row's:** what is hashed for them differs in length where
they are of different sorts. -/
theorem input_injective : Function.Injective RowName.input := by
  intro name name' h
  have hlen := congrArg List.length h
  rw [length_input, length_input] at hlen
  cases name <;> cases name' <;> try (simp at hlen; done)
  case bucket p q =>
    exact congrArg _ (placeBytes_inj.1 (List.append_cancel_left h))
  case ids p n q m =>
    simp only [RowName.input, List.append_assoc] at h
    have h := List.append_cancel_left (List.append_cancel_left h)
    obtain ⟨hp, hn⟩ := List.append_inj h (by rw [length_placeBytes, length_placeBytes])
    rw [placeBytes_inj.1 hp, putBe_uint32_inj.1 hn]
  case gone p q =>
    simp only [RowName.input, List.append_assoc] at h
    exact congrArg _ (placeBytes_inj.1 (List.append_cancel_left (List.append_cancel_left h)))
  case item kind id kind' id' =>
    simp only [RowName.input, List.append_assoc] at h
    obtain ⟨hkind, hid⟩ := List.append_inj (List.append_cancel_left (List.append_cancel_left h)) rfl
    rw [byte_injective (List.cons.inj hkind).1, bytes32_inj.1 hid]
  case byref kind key kind' key' =>
    simp only [RowName.input, List.append_assoc] at h
    obtain ⟨hkind, hkey⟩ :=
      List.append_inj (List.append_cancel_left (List.append_cancel_left h)) rfl
    rw [byte_injective (List.cons.inj hkind).1, bytes32_inj.1 hkey]

section Rows

variable {hash : HashOps} {T : Set RowName} {d d' : BucketsDisk} {name name' : RowName} {row : Row}

/-- The hash is injective on the names of some rows. -/
def NamesApart (hash : HashOps) (T : Set RowName) : Prop :=
  hash.InjOn {x | ∃ name ∈ T, x = name.input}

theorem rowOf_inj (hT : NamesApart hash T) (hname : name ∈ T) (hname' : name' ∈ T)
    {k : BucketSlot × Bytes32} (h : rowOf hash name = some k) (h' : rowOf hash name' = some k) :
    name = name' := by
  obtain ⟨row, hrow, rfl⟩ := Option.map_eq_some_iff.1 h
  obtain ⟨row', hrow', heq⟩ := Option.map_eq_some_iff.1 h'
  obtain ⟨-, rfl⟩ := Prod.mk.inj heq
  exact input_injective (hT _ ⟨name, hname, rfl⟩ _ ⟨name', hname', rfl⟩ _ hrow hrow')

theorem loadRow_congr (h : d'.rows = d.rows) (name : RowName) :
    loadRow hash d' name = loadRow hash d name := by
  have hload : d'.load = d.load := by
    funext k
    rw [Disk.load, h, Disk.load]
  unfold loadRow
  rw [hload]

/-- A row saved is there, or the save is not answered and nothing changed. -/
theorem loadRow_saveRow_self (hash : HashOps) (name : RowName) (row : Row) (d : BucketsDisk) :
    loadRow hash (saveRow hash name row d).2 name = some row ∨
      (saveRow hash name row d).1 = false ∧ (saveRow hash name row d).2.rows = d.rows := by
  unfold saveRow loadRow
  cases rowOf hash name with
  | none => exact Or.inr ⟨rfl, rfl⟩
  | some k =>
    rcases d.save_rows k row with hrows | hno
    · refine Or.inl ?_
      show (d.save k row).2.load k = some row
      rw [Disk.load, hrows, AList.lookup_insert]
    · exact Or.inr hno

/-- **A row saved leaves every other.** -/
theorem loadRow_saveRow_ne (hT : NamesApart hash T) (hname : name ∈ T) (hname' : name' ∈ T)
    (hne : name' ≠ name) :
    loadRow hash (saveRow hash name row d).2 name' = loadRow hash d name' := by
  unfold saveRow
  cases hk : rowOf hash name with
  | none => rfl
  | some k =>
    unfold loadRow
    cases hk' : rowOf hash name' with
    | none => rfl
    | some k' =>
      show (d.save k row).2.load k' = d.load k'
      refine Disk.load_save_ne ?_
      rintro rfl
      exact hne (rowOf_inj hT hname' hname hk' hk)

theorem chunkLoad_eq {p : Place} {n : UInt32} {ids : List Bytes32} :
    chunkLoad hash d p n = some ids ↔ loadRow hash d (.ids p n) = some (.ids ids) := by
  unfold chunkLoad
  constructor
  · intro h
    split at h
    · next heq => rw [heq, Option.some.inj h]
    · cases h
  · intro h
    rw [h]

/-- What `bucket_load` reads is the bucket's row. -/
theorem bucketLoad_eq (hash : HashOps) (d : BucketsDisk) (p : Place) : bucketLoad hash d p =
    if rowOf hash (.bucket p) = none then .error ()
    else match loadRow hash d (.bucket p) with
      | none => .ok none
      | some (.bucket q count sum) => if q = p then .ok (some (count, sum)) else .error ()
      | some _ => .error () := by
  unfold bucketLoad loadRow
  cases rowOf hash (.bucket p) <;> rfl

end Rows

end Node
end Fuzznet
