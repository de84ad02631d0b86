import LimitOrderBook.Book.Model
import LimitOrderBook.Library.ByteCodec

/-!
# Feed files

`feed_message.hpp` and the file functions of `feed_replay.hpp`. A feed message in memory is a
record of 40 bytes, which the source moves to and from files as raw bytes: the two leading bytes,
six bytes of padding, and four little-endian words. A file is the string of its bytes; reading and
writing move bytes faithfully.
-/

namespace LimitOrderBook

open ByteCodec

/-- A `FeedMessage` in memory: its fields, which are 64-bit integers, and its padding bytes. -/
@[ext] structure FeedRecord where
  msg : FeedMessage
  padding : Vector UInt8 6
  price_fits : FitsInt64 msg.price
  qty_fits : FitsInt64 msg.qty
  deriving DecidableEq

/-- `sizeof(FeedMessage)`. -/
def kRecordBytes : Nat := 40

/-- The 64-bit word that holds a signed integer. -/
def wordOf (x : Int) : Nat := (x % 2 ^ 64).toNat

/-- The 64-bit word at an offset. -/
def wordAt (bytes : List UInt8) (offset : Nat) : Nat :=
  ofLeBytes ((bytes.drop offset).take 8)

/-- A word read as a signed integer is one. -/
theorem fitsInt64_wrap64 (x : Int) : FitsInt64 (wrap64 x) := by
  have hle : -2 ^ 63 ≤ x.bmod (2 ^ 64) := Int.le_bmod (by decide)
  have hlt : x.bmod (2 ^ 64) < 2 ^ 63 := Int.bmod_lt (by decide)
  unfold FitsInt64 int64Min int64Max wrap64
  omega

namespace FeedRecord

/-- The bytes of a record. -/
def bytes (r : FeedRecord) : List UInt8 :=
  [r.msg.type.byte, r.msg.side.byte] ++ r.padding.toList ++ leBytes 8 r.msg.id.toNat ++
    leBytes 8 (wordOf r.msg.price) ++ leBytes 8 (wordOf r.msg.qty) ++ leBytes 8 r.msg.ts.toNat

/-- The fields that bytes hold. -/
def fieldsOf (bytes : List UInt8) : FeedMessage where
  type := ⟨bytes.getD 0 0⟩
  side := ⟨bytes.getD 1 0⟩
  id := UInt64.ofNat (wordAt bytes 8)
  price := wrap64 (wordAt bytes 16)
  qty := wrap64 (wordAt bytes 24)
  ts := UInt64.ofNat (wordAt bytes 32)

/-- The record that has these bytes. -/
def ofBytes (bytes : List UInt8) : FeedRecord where
  msg := fieldsOf bytes
  padding := Vector.ofFn fun i => bytes.getD (2 + i) 0
  price_fits := by dsimp only [fieldsOf]; exact fitsInt64_wrap64 _
  qty_fits := by dsimp only [fieldsOf]; exact fitsInt64_wrap64 _

/-- A value-initialized record. -/
def zero : FeedRecord := ofBytes []

end FeedRecord

/-- `max_size()` of a vector of feed messages: the largest pointer difference over the size of
an element. -/
def vectorMaxSize : Nat := (2 ^ 63 - 1) / kRecordBytes

/-- A `std::vector<FeedMessage>`. -/
@[ext] structure FeedVector where
  records : List FeedRecord
  bounded : records.length ≤ vectorMaxSize

/-- The empty vector. -/
def FeedVector.empty : FeedVector := ⟨[], Nat.zero_le _⟩

/-- What the standard library may throw. -/
inductive Exception where
  | lengthError
  | badAlloc
  deriving DecidableEq, Repr

/-- The vector of `count` value-initialized records, if the allocator has memory for them.
`allocates` says for a number of bytes whether it has; an empty vector needs none. -/
def FeedVector.ofSize (allocates : Nat → Bool) (count : Nat) : Except Exception FeedVector :=
  if h : count ≤ vectorMaxSize then
    if count = 0 ∨ allocates (kRecordBytes * count) = true then
      .ok ⟨List.replicate count .zero, by rwa [List.length_replicate]⟩
    else .error .badAlloc
  else .error .lengthError

/-- `fread` into a vector: the records that are there, at most as many as the vector has, replace
its first ones. Returns how many there are. -/
def FeedVector.fread (v : FeedVector) (bytes : List UInt8) : Nat × FeedVector :=
  let n := min v.records.length (bytes.length / kRecordBytes)
  (n, { records := (cut kRecordBytes n bytes).map .ofBytes ++ v.records.drop n
        bounded := by
          have hbounded := v.bounded
          have hn : n ≤ v.records.length := Nat.min_le_left _ _
          rw [List.length_append, List.length_map, length_cut, List.length_drop]
          omega })

/-- `FeedFileHeader`. -/
structure FeedFileHeader where
  magic : List UInt8 := [79, 66, 70, 69, 69, 68, 49, 0]
  count : UInt64 := 0

/-- `sizeof(FeedFileHeader)`. -/
def kFileHeaderBytes : Nat := 16

/-- The bytes of a header. -/
def FeedFileHeader.bytes (hdr : FeedFileHeader) : List UInt8 :=
  hdr.magic ++ leBytes 8 hdr.count.toNat

/-- The header that has these bytes. -/
def FeedFileHeader.ofBytes (bytes : List UInt8) : FeedFileHeader where
  magic := bytes.take 8
  count := UInt64.ofNat (wordAt bytes 8)

/-- `feed_magic_valid`. -/
def feedMagicValid (hdr : FeedFileHeader) : Bool :=
  (List.range 8).all fun i => hdr.magic[i]? == ({} : FeedFileHeader).magic[i]?

/-- `save_feed_file`, for a path that can be opened for writing or not. Returns its answer and what
the file holds afterwards. -/
def saveFeedFile (opens : Bool) (file : Option (List UInt8)) (msgs : FeedVector) :
    Bool × Option (List UInt8) :=
  if opens then
    let hdr : FeedFileHeader := { count := UInt64.ofNat msgs.records.length }
    (true, some (hdr.bytes ++ msgs.records.flatMap FeedRecord.bytes))
  else (false, file)

/-- `load_feed_file` with an allocator, from the bytes of the file if it can be opened. Returns its
answer and the vector `out`. -/
def loadFeedFileWith (allocates : Nat → Bool) (file : Option (List UInt8)) (_out : FeedVector) :
    Except Exception (Bool × FeedVector) :=
  let out := FeedVector.empty
  match file with
  | none => .ok (false, out)
  | some bytes =>
      if bytes.length < kFileHeaderBytes then .ok (false, out)
      else
        let hdr := FeedFileHeader.ofBytes bytes
        if !feedMagicValid hdr then .ok (false, out)
        else do
          let msgs ← FeedVector.ofSize allocates hdr.count.toNat
          if 0 < hdr.count then
            let (read, msgs) := msgs.fread (bytes.drop kFileHeaderBytes)
            if read = msgs.records.length then .ok (true, msgs) else .ok (false, out)
          else .ok (true, msgs)

/-- `load_feed_file` on a machine with enough memory. -/
def loadFeedFile (file : Option (List UInt8)) (out : FeedVector) :
    Except Exception (Bool × FeedVector) :=
  loadFeedFileWith (fun _ => true) file out

end LimitOrderBook
