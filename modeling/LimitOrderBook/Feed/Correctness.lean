import LimitOrderBook.Feed.Model

/-!
# Feed files round-trip

The bytes of a record determine it (`FeedRecord.ofBytes_bytes`), the header of a saved file declares
as many records as follow it, and `load_feed_file` accepts exactly the files that hold all the
records they declare (`load_records`). A header that declares more records than a vector can hold,
or than there is memory for, makes it throw (`load_oversized`).
-/

namespace LimitOrderBook

open ByteCodec

/-! ## Records -/

/-- A word is read back from its place. -/
theorem wordAt_eq (front back : List UInt8) {bytes : List UInt8} {offset value : Nat}
    (hbytes : bytes = front ++ leBytes 8 value ++ back) (hfront : front.length = offset)
    (hvalue : value < 2 ^ 64) : wordAt bytes offset = value := by
  rw [wordAt, hbytes, List.append_assoc, List.drop_left' hfront,
    List.take_left' (length_leBytes 8 value), ofLeBytes_leBytes]
  exact Nat.mod_eq_of_lt hvalue

/-- The word of a signed integer. -/
theorem wordOf_lt (x : Int) : wordOf x < 2 ^ 64 := by
  unfold wordOf
  omega

/-- A 64-bit integer is recovered from its word. -/
theorem wrap64_wordOf {x : Int} (hx : FitsInt64 x) : wrap64 (wordOf x) = x := by
  have hword : (wordOf x : Int) = x % 2 ^ 64 := by
    unfold wordOf
    omega
  have hmod : (x % 2 ^ 64).bmod (2 ^ 64) = x.bmod (2 ^ 64) := Int.emod_bmod ..
  rw [hword, wrap64, hmod]
  exact wrap64_eq hx.1 hx.2

namespace FeedRecord

@[simp] theorem length_bytes (r : FeedRecord) : r.bytes.length = kRecordBytes := by
  simp [bytes, kRecordBytes]

/-- The fields of a record are recovered from its bytes. -/
theorem fieldsOf_bytes (r : FeedRecord) : fieldsOf r.bytes = r.msg := by
  have hid : wordAt r.bytes 8 = r.msg.id.toNat :=
    wordAt_eq ([r.msg.type.byte, r.msg.side.byte] ++ r.padding.toList)
      (leBytes 8 (wordOf r.msg.price) ++ leBytes 8 (wordOf r.msg.qty) ++ leBytes 8 r.msg.ts.toNat)
      (by simp [bytes]) (by simp) r.msg.id.toNat_lt
  have hprice : wordAt r.bytes 16 = wordOf r.msg.price :=
    wordAt_eq ([r.msg.type.byte, r.msg.side.byte] ++ r.padding.toList ++ leBytes 8 r.msg.id.toNat)
      (leBytes 8 (wordOf r.msg.qty) ++ leBytes 8 r.msg.ts.toNat)
      (by simp [bytes]) (by simp) (wordOf_lt _)
  have hqty : wordAt r.bytes 24 = wordOf r.msg.qty :=
    wordAt_eq _ (leBytes 8 r.msg.ts.toNat) rfl (by simp) (wordOf_lt _)
  have hts : wordAt r.bytes 32 = r.msg.ts.toNat :=
    wordAt_eq _ [] (List.append_nil _).symm (by simp) r.msg.ts.toNat_lt
  rw [fieldsOf, hid, hprice, hqty, hts, wrap64_wordOf r.price_fits, wrap64_wordOf r.qty_fits,
    UInt64.ofNat_toNat, UInt64.ofNat_toNat]
  rfl

/-- A record is recovered from its bytes. -/
theorem ofBytes_bytes (r : FeedRecord) : ofBytes r.bytes = r := by
  refine FeedRecord.ext (fieldsOf_bytes r) ?_
  refine Vector.ext fun i hi => ?_
  have hpad : r.bytes.getD (2 + i) 0 = r.padding.toList.getD i 0 := by
    rw [Nat.add_comm]
    simp [bytes, List.getElem?_append, hi]
  simpa [ofBytes, hi] using hpad

end FeedRecord

/-! ## Headers -/

/-- A header that is written declares the count and has the magic. -/
theorem FeedFileHeader.ofBytes_bytes (count : UInt64) (rest : List UInt8) :
    FeedFileHeader.ofBytes (({ count := count } : FeedFileHeader).bytes ++ rest) =
      { count := count } := by
  have hcount : wordAt (({ count := count } : FeedFileHeader).bytes ++ rest) 8 = count.toNat :=
    wordAt_eq ({ count := count } : FeedFileHeader).magic rest rfl rfl count.toNat_lt
  rw [FeedFileHeader.ofBytes, hcount, UInt64.ofNat_toNat]
  rfl

/-- The header is there and has the magic. -/
def HeaderOk (bytes : List UInt8) : Prop :=
  kFileHeaderBytes ≤ bytes.length ∧ bytes.take 8 = ({} : FeedFileHeader).magic

/-- The number of records that the header declares. -/
def declaredCount (bytes : List UInt8) : Nat := wordAt bytes 8

/-- The check of the magic compares all eight bytes. -/
theorem feedMagicValid_iff {bytes : List UInt8} (hlen : kFileHeaderBytes ≤ bytes.length) :
    feedMagicValid (.ofBytes bytes) = true ↔ bytes.take 8 = ({} : FeedFileHeader).magic := by
  have htake : (bytes.take 8).length = 8 := by
    rw [List.length_take]
    unfold kFileHeaderBytes at hlen
    omega
  rw [feedMagicValid, List.all_eq_true]
  constructor
  · intro hall
    refine List.ext_getElem? fun i => ?_
    by_cases hi : i < 8
    · exact eq_of_beq (hall i (List.mem_range.mpr hi))
    · rw [List.getElem?_eq_none (by omega), List.getElem?_eq_none (by simp; omega)]
  · intro heq i _
    rw [beq_iff_eq]
    exact congrArg (fun l => l[i]?) heq

/-- The declared count is a 64-bit integer. -/
theorem declaredCount_lt (bytes : List UInt8) : declaredCount bytes < 2 ^ 64 := by
  have hlt := ofLeBytes_lt ((bytes.drop 8).take 8)
  have hlen : ((bytes.drop 8).take 8).length ≤ 8 := List.length_take_le _ _
  calc declaredCount bytes < 256 ^ ((bytes.drop 8).take 8).length := hlt
    _ ≤ 256 ^ 8 := Nat.pow_le_pow_right (by decide) hlen
    _ = 2 ^ 64 := by norm_num

/-- The count that `load_feed_file` reads. -/
theorem count_ofBytes (bytes : List UInt8) :
    (FeedFileHeader.ofBytes bytes).count.toNat = declaredCount bytes :=
  Nat.mod_eq_of_lt (declaredCount_lt bytes)

/-! ## Loading -/

namespace FeedVector

variable (v : FeedVector) (bytes : List UInt8)

@[simp] theorem length_fread : (v.fread bytes).2.records.length = v.records.length := by
  have hn : min v.records.length (bytes.length / kRecordBytes) ≤ v.records.length :=
    Nat.min_le_left _ _
  simp only [fread, List.length_append, List.length_map, length_cut, List.length_drop]
  omega

/-- `fread` returns the size of the vector exactly if all its records are there. -/
theorem fread_eq_length :
    (v.fread bytes).1 = v.records.length ↔ kRecordBytes * v.records.length ≤ bytes.length := by
  rw [fread, min_eq_left_iff, Nat.le_div_iff_mul_le (by decide), Nat.mul_comm]

variable {v bytes}

/-- The records that `fread` then leaves in the vector. -/
theorem records_fread (hall : kRecordBytes * v.records.length ≤ bytes.length) :
    (v.fread bytes).2.records = (cut kRecordBytes v.records.length bytes).map .ofBytes := by
  have hn : min v.records.length (bytes.length / kRecordBytes) = v.records.length :=
    (v.fread_eq_length bytes).mpr hall
  simp only [fread, hn, List.drop_length, List.append_nil]

end FeedVector

/-- There is a vector of `count` records: no more than `max_size()`, and with memory for them. -/
def CanHold (allocates : Nat → Bool) (count : Nat) : Prop :=
  count ≤ vectorMaxSize ∧ (count = 0 ∨ allocates (kRecordBytes * count) = true)

instance (allocates : Nat → Bool) (count : Nat) : Decidable (CanHold allocates count) :=
  inferInstanceAs (Decidable (_ ∧ _))

section Load

variable {allocates : Nat → Bool} {bytes : List UInt8}

/-- Without a header that has the magic the file is refused. -/
theorem load_bad_header (hbad : ¬ HeaderOk bytes) (out : FeedVector) :
    loadFeedFileWith allocates (some bytes) out = .ok (false, .empty) := by
  unfold loadFeedFileWith
  by_cases hlen : bytes.length < kFileHeaderBytes
  · simp [hlen]
  · have hmagic : feedMagicValid (.ofBytes bytes) = false := by
      rw [← Bool.not_eq_true, feedMagicValid_iff (by omega)]
      exact fun h => hbad ⟨by omega, h⟩
    simp [hlen, hmagic]

/-- A header that declares more records than there can be in a vector makes loading throw. -/
theorem load_oversized (hok : HeaderOk bytes)
    (hcount : ¬ CanHold allocates (declaredCount bytes)) (out : FeedVector) :
    loadFeedFileWith allocates (some bytes) out =
      .error (if declaredCount bytes ≤ vectorMaxSize then .badAlloc else .lengthError) := by
  have hmagic := (feedMagicValid_iff hok.1).mpr hok.2
  have hsize : FeedVector.ofSize allocates (FeedFileHeader.ofBytes bytes).count.toNat =
      .error (if declaredCount bytes ≤ vectorMaxSize then .badAlloc else .lengthError) := by
    rw [count_ofBytes, FeedVector.ofSize]
    by_cases hmax : declaredCount bytes ≤ vectorMaxSize
    · rw [dif_pos hmax, if_neg fun h => hcount ⟨hmax, h⟩, if_pos hmax]
    · rw [dif_neg hmax, if_neg hmax]
  simp only [loadFeedFileWith, Nat.not_lt.mpr hok.1, if_false, hmagic, Bool.not_true,
    Bool.false_eq_true, hsize]
  rfl

/-- The records of a file that declares no more than a vector can hold. -/
def declaredRecords (bytes : List UInt8) : List FeedRecord :=
  (cut kRecordBytes (declaredCount bytes) (bytes.drop kFileHeaderBytes)).map .ofBytes

/-- Otherwise the file is accepted exactly if it holds all the records that it declares. -/
theorem load_records (hok : HeaderOk bytes) (hcount : CanHold allocates (declaredCount bytes))
    (out : FeedVector) :
    loadFeedFileWith allocates (some bytes) out =
      if kFileHeaderBytes + kRecordBytes * declaredCount bytes ≤ bytes.length then
        .ok (true, ⟨declaredRecords bytes, by
          rw [declaredRecords, List.length_map, length_cut]
          exact hcount.1⟩)
      else .ok (false, .empty) := by
  have hmagic := (feedMagicValid_iff hok.1).mpr hok.2
  have hbody : (bytes.drop kFileHeaderBytes).length = bytes.length - kFileHeaderBytes :=
    List.length_drop
  have hlen := hok.1
  have hzero : (0 < (FeedFileHeader.ofBytes bytes).count) = (0 < declaredCount bytes) := by
    rw [← count_ofBytes, UInt64.lt_iff_toNat_lt]
    rfl
  simp only [loadFeedFileWith, Nat.not_lt.mpr hok.1, if_false, hmagic, Bool.not_true,
    Bool.false_eq_true, count_ofBytes, hzero, FeedVector.ofSize, dif_pos hcount.1,
    if_pos hcount.2]
  generalize hv : (⟨List.replicate (declaredCount bytes) .zero, _⟩ : FeedVector) = v
  have hsize : v.records.length = declaredCount bytes := by
    rw [← hv, List.length_replicate]
  have hfread : (v.fread (bytes.drop kFileHeaderBytes)).1 =
      (v.fread (bytes.drop kFileHeaderBytes)).2.records.length ↔
        kFileHeaderBytes + kRecordBytes * declaredCount bytes ≤ bytes.length := by
    rw [FeedVector.length_fread, FeedVector.fread_eq_length, hsize, hbody]
    omega
  simp only [bind, Except.bind, hfread]
  by_cases hpos : 0 < declaredCount bytes
  · rw [if_pos hpos]
    by_cases hall : kFileHeaderBytes + kRecordBytes * declaredCount bytes ≤ bytes.length
    · rw [if_pos hall, if_pos hall]
      refine congrArg (fun v => Except.ok (true, v)) (FeedVector.ext ?_)
      rw [FeedVector.records_fread (by rw [hsize, hbody]; omega), hsize]
      rfl
    · rw [if_neg hall, if_neg hall]
  · have hnone : declaredCount bytes = 0 := by omega
    rw [if_neg hpos, if_pos (by rw [hnone]; exact hlen)]
    refine congrArg (fun v => Except.ok (true, v)) (FeedVector.ext ?_)
    change v.records = declaredRecords bytes
    rw [declaredRecords, hnone, List.length_eq_zero_iff.mp (hsize.trans hnone)]
    rfl

end Load

/-! ## Saved files -/

/-- The bytes that `save_feed_file` writes. -/
def savedBytes (msgs : FeedVector) : List UInt8 :=
  ({ count := UInt64.ofNat msgs.records.length } : FeedFileHeader).bytes ++
    msgs.records.flatMap FeedRecord.bytes

section Saved

variable (msgs : FeedVector) (tail : List UInt8)

/-- A vector has fewer records than a 64-bit count can tell apart. -/
theorem FeedVector.length_lt : msgs.records.length < 2 ^ 64 :=
  lt_of_le_of_lt msgs.bounded (by decide)

/-- A saved file has 16 bytes and 40 for each record. -/
theorem length_savedBytes :
    (savedBytes msgs).length = kFileHeaderBytes + kRecordBytes * msgs.records.length := by
  rw [savedBytes, List.length_append, length_flatMap FeedRecord.length_bytes]
  simp [FeedFileHeader.bytes, kFileHeaderBytes]

/-- A saved file declares its records. -/
theorem declaredCount_savedBytes :
    declaredCount (savedBytes msgs ++ tail) = msgs.records.length := by
  rw [← count_ofBytes, savedBytes, List.append_assoc, FeedFileHeader.ofBytes_bytes,
    UInt64.toNat_ofNat', Nat.mod_eq_of_lt msgs.length_lt]

/-- A saved file has its header. -/
theorem headerOk_savedBytes : HeaderOk (savedBytes msgs ++ tail) := by
  refine ⟨?_, rfl⟩
  rw [List.length_append, length_savedBytes]
  omega

/-- A saved file holds the records. -/
theorem declaredRecords_savedBytes : declaredRecords (savedBytes msgs ++ tail) = msgs.records := by
  have hbody : (savedBytes msgs ++ tail).drop kFileHeaderBytes =
      msgs.records.flatMap FeedRecord.bytes ++ tail := by
    rw [savedBytes, List.append_assoc]
    exact List.drop_left' (by simp [FeedFileHeader.bytes, kFileHeaderBytes])
  rw [declaredRecords, declaredCount_savedBytes, hbody, cut_flatMap FeedRecord.length_bytes,
    List.map_map]
  exact (List.map_congr_left fun r _ => r.ofBytes_bytes).trans (List.map_id _)

/-- A saved file is loaded back, whatever follows it. -/
theorem load_savedBytes (out : FeedVector) :
    loadFeedFile (some (savedBytes msgs ++ tail)) out = .ok (true, msgs) := by
  rw [loadFeedFile, load_records (headerOk_savedBytes msgs tail)
    (by rw [declaredCount_savedBytes]; exact ⟨msgs.bounded, Or.inr rfl⟩), if_pos]
  · simp only [declaredRecords_savedBytes]
  · rw [declaredCount_savedBytes, List.length_append, length_savedBytes]
    omega

/-- A saved file that is cut short is refused. -/
theorem load_cut_short {cut : List UInt8} (hcut : cut <+: savedBytes msgs)
    (hshort : cut ≠ savedBytes msgs) (out : FeedVector) :
    loadFeedFile (some cut) out = .ok (false, .empty) := by
  obtain ⟨rest, hrest⟩ := hcut
  have hlen : cut.length < kFileHeaderBytes + kRecordBytes * msgs.records.length := by
    rw [← length_savedBytes, ← hrest, List.length_append]
    have hne : rest.length ≠ 0 := fun h =>
      hshort (by rw [← hrest, List.length_eq_zero_iff.mp h, List.append_nil])
    omega
  by_cases hok : HeaderOk cut
  · -- the header is whole, so it still declares all the records
    have hcount : declaredCount cut = msgs.records.length := by
      rw [← declaredCount_savedBytes msgs [], List.append_nil, ← hrest]
      have hword := hok.1
      simp only [declaredCount, wordAt]
      rw [List.drop_append_of_le_length (by unfold kFileHeaderBytes at hword; omega),
        List.take_append_of_le_length (by
          rw [List.length_drop]; unfold kFileHeaderBytes at hword; omega)]
    rw [loadFeedFile, load_records hok (by rw [hcount]; exact ⟨msgs.bounded, Or.inr rfl⟩),
      if_neg (by rw [hcount]; omega)]
  · exact load_bad_header hok out

end Saved

/-- Feed files round-trip: what is saved is loaded back with any bytes after it, every strict
prefix of it is refused with an empty result, and what is loaded from any file survives saving. -/
theorem feed_file_round_trip (msgs : FeedVector) (old : Option (List UInt8)) :
    ∃ file, saveFeedFile true old msgs = (true, some file) ∧
      (∀ tail out, loadFeedFile (some (file ++ tail)) out = .ok (true, msgs)) ∧
      (∀ cut out, cut <+: file → cut ≠ file →
        loadFeedFile (some cut) out = .ok (false, .empty)) ∧
      ∀ bytes out loaded, loadFeedFile (some bytes) out = .ok (true, loaded) →
        ∃ again, saveFeedFile true old loaded = (true, some again) ∧
          ∀ out, loadFeedFile (some again) out = .ok (true, loaded) := by
  refine ⟨savedBytes msgs, rfl, load_savedBytes msgs, fun cut out hcut hshort =>
    load_cut_short msgs hcut hshort out, fun bytes out loaded _ => ⟨savedBytes loaded, rfl, ?_⟩⟩
  intro out
  have hload := load_savedBytes loaded [] out
  rwa [List.append_nil] at hload

/-! ## Any bytes -/

/-- The file has a header with the magic and all the records that the header declares. -/
def Complete (bytes : List UInt8) : Prop :=
  HeaderOk bytes ∧ kFileHeaderBytes + kRecordBytes * declaredCount bytes ≤ bytes.length

instance (bytes : List UInt8) : Decidable (HeaderOk bytes) :=
  inferInstanceAs (Decidable (_ ∧ _))

instance (bytes : List UInt8) : Decidable (Complete bytes) :=
  inferInstanceAs (Decidable (_ ∧ _))

/-- Loading returns normally: true with the declared records if the file is complete, and false
with nothing if it is not. -/
def LoadsCleanly (allocates : Nat → Bool) (bytes : List UInt8) (out : FeedVector) : Prop :=
  if Complete bytes then
    ∃ msgs, loadFeedFileWith allocates (some bytes) out = .ok (true, msgs) ∧
      msgs.records = declaredRecords bytes ∧ msgs.records.length = declaredCount bytes
  else loadFeedFileWith allocates (some bytes) out = .ok (false, .empty)

/-- Loading returns normally exactly if the file does not have a header that declares more records
than a vector can hold, or than there is memory for. -/
theorem loads_cleanly_iff (allocates : Nat → Bool) (bytes : List UInt8) (out : FeedVector) :
    LoadsCleanly allocates bytes out ↔
      (HeaderOk bytes → CanHold allocates (declaredCount bytes)) := by
  unfold LoadsCleanly
  by_cases hok : HeaderOk bytes
  · by_cases hcount : CanHold allocates (declaredCount bytes)
    · refine iff_of_true ?_ fun _ => hcount
      rw [load_records hok hcount]
      by_cases hall : kFileHeaderBytes + kRecordBytes * declaredCount bytes ≤ bytes.length
      · rw [if_pos ⟨hok, hall⟩, if_pos hall]
        refine ⟨_, rfl, rfl, ?_⟩
        change (declaredRecords bytes).length = declaredCount bytes
        rw [declaredRecords, List.length_map, length_cut]
      · rw [if_neg fun h => hall h.2, if_neg hall]
    · refine iff_of_false (fun h => ?_) fun h => hcount (h hok)
      rw [load_oversized hok hcount] at h
      split at h
      · obtain ⟨_, hmsgs, -⟩ := h
        cases hmsgs
      · cases h
  · refine iff_of_true ?_ fun h => absurd h hok
    rw [if_neg fun h => hok h.1, load_bad_header hok]

/-- A bare header that declares 2^64 - 1 records makes loading throw, however much memory there is,
and one that declares 2^50 records does if there are only 2^47 bytes. -/
theorem not_loads_cleanly_largest_count :
    (loadFeedFileWith (fun _ => true)
        (some ([79, 66, 70, 69, 69, 68, 49, 0] ++ List.replicate 8 255)) .empty =
          .error .lengthError ∧
      ¬ LoadsCleanly (fun _ => true) ([79, 66, 70, 69, 69, 68, 49, 0] ++ List.replicate 8 255)
        .empty) ∧
    loadFeedFileWith (fun n => decide (n ≤ 2 ^ 47))
        (some ([79, 66, 70, 69, 69, 68, 49, 0] ++ [0, 0, 0, 0, 0, 0, 4, 0])) .empty =
          .error .badAlloc ∧
      ¬ LoadsCleanly (fun n => decide (n ≤ 2 ^ 47))
        ([79, 66, 70, 69, 69, 68, 49, 0] ++ [0, 0, 0, 0, 0, 0, 4, 0]) .empty := by
  refine ⟨⟨load_oversized (by decide) (by decide) .empty, fun h => ?_⟩,
    load_oversized (by decide) (by decide) .empty, fun h => ?_⟩
  · rw [LoadsCleanly, if_neg (by decide), load_oversized (by decide) (by decide)] at h
    cases h
  · rw [LoadsCleanly, if_neg (by decide), load_oversized (by decide) (by decide)] at h
    cases h

end LimitOrderBook
