import LimitOrderBook.Library.CyclicBuffer
import LimitOrderBook.Xdp.Model
import Mathlib.Data.List.Perm.Basic

/-!
# Every chunk of the UMEM has one owner

`poll` writes to the FILL ring without asking for room. That is safe because chunks are neither made
nor lost: at every step each chunk is in the FILL ring, with the kernel, in the RX ring or in the
batch that `poll` works on (`InvAt.places`), so the FILL ring never has more entries than there are
chunks. For the same reason nobody writes to a frame before it has been handled. `InvAt` counts
entries without bound; the 32-bit counters are those numbers reduced, so that nothing changes when
they wrap.
-/

namespace LimitOrderBook

open CyclicBuffer (Holds slotsFrom)

/-! ## Rings -/

section Rings

variable {D : Type} {frameCount : Nat} {ring : XdpRing D} {items : List D} {c : Nat}

/-- The entries from a counter up to the producer. -/
def XdpRing.pending (frameCount : Nat) (ring : XdpRing D) (start : UInt32) : List D :=
  (List.range (ring.producer - start).toNat).map fun i =>
    ring.descs (slotOf frameCount (start + UInt32.ofNat i))

/-- The rings that `open` accepts. -/
structure ValidRing (frameCount : Nat) : Prop where
  power : frameCount.isPowerOfTwo
  fits : frameCount < 2 ^ 32

/-- The ring when the items have been put in and the first `c` of them taken out. -/
structure RingOk (frameCount : Nat) (ring : XdpRing D) (items : List D) (c : Nat) : Prop where
  producer : ring.producer = UInt32.ofNat items.length
  consumer : ring.consumer = UInt32.ofNat c
  le : c ≤ items.length
  room : items.length ≤ c + frameCount
  holds : Holds frameCount ring.descs items c

/-- The entry of the counter of a number. -/
theorem ValidRing.slotOf_ofNat (hvalid : ValidRing frameCount) (n : Nat) :
    slotOf frameCount (UInt32.ofNat n) = n % frameCount :=
  CyclicBuffer.counter_slot hvalid.power hvalid.fits n

namespace RingOk

variable (hvalid : ValidRing frameCount) (h : RingOk frameCount ring items c)
include hvalid h

/-- The number of entries from a counter on. -/
theorem distance {k : Nat} (hck : c ≤ k) (hk : k ≤ items.length) :
    (ring.producer - UInt32.ofNat k).toNat = items.length - k := by
  rw [h.producer]
  refine CyclicBuffer.counter_distance hk ?_
  have hroom := h.room
  have hfits := hvalid.fits
  omega

/-- The number of entries that have not been taken out. -/
theorem used : (ring.producer - ring.consumer).toNat = items.length - c := by
  rw [h.consumer]
  exact h.distance hvalid le_rfl h.le

/-- The entries from a counter on. -/
theorem pending_eq {k : Nat} (hck : c ≤ k) (hk : k ≤ items.length) :
    ring.pending frameCount (UInt32.ofNat k) = items.drop k := by
  rw [← (h.holds.mono hck).contents, XdpRing.pending, h.distance hvalid hck hk, slotsFrom,
    List.map_map]
  refine List.map_congr_left fun i _ => ?_
  rw [← UInt32.ofNat_add, hvalid.slotOf_ofNat, Function.comp_apply, Nat.mod_add_mod]

/-- An entry is found under the counter of its number. -/
theorem entry {k : Nat} {x : D} (hck : c ≤ k) (hx : items[k]? = some x) :
    ring.descs (slotOf frameCount (UInt32.ofNat k)) = x := by
  rw [hvalid.slotOf_ofNat]
  exact h.holds k x hck hx

end RingOk

end Rings

/-! ## Frames in the UMEM -/

section Umem

variable {frameSize : Nat}

/-- The chunk of an address. -/
def chunkOf (frameSize : Nat) (addr : UInt64) : Nat := addr.toNat / frameSize

/-- The descriptor leads to the frame, which lies in one chunk. -/
structure FrameOk (frameSize : Nat) (umem : Nat → UInt8) (p : XdpDesc × List UInt8) : Prop where
  length : p.1.len.toNat = p.2.length
  inside : p.1.addr.toNat % frameSize + p.2.length ≤ frameSize
  bytes : readBytes umem p.1.addr.toNat p.2.length = p.2

/-- What has been written is read back. -/
theorem readBytes_writeBytes (umem : Nat → UInt8) (addr : Nat) (bytes : List UInt8) :
    readBytes (writeBytes umem addr bytes) addr bytes.length = bytes := by
  refine List.ext_getElem (by simp [readBytes]) fun i hi hi' => ?_
  simp [readBytes, writeBytes, hi']

/-- Writing in one chunk leaves the frames in the others. -/
theorem FrameOk.write {umem : Nat → UInt8} {p : XdpDesc × List UInt8}
    (h : FrameOk frameSize umem p) {chunk offset : Nat} {frame : List UInt8}
    (hinside : offset + frame.length ≤ frameSize) (hother : chunkOf frameSize p.1.addr ≠ chunk) :
    FrameOk frameSize (writeBytes umem (chunk * frameSize + offset) frame) p := by
  refine ⟨h.length, h.inside, Eq.trans ?_ h.bytes⟩
  refine List.map_congr_left fun i hi => if_neg fun hrange => hother ?_
  have hlt := List.mem_range.mp hi
  have hin := h.inside
  have haddr := Nat.div_add_mod p.1.addr.toNat frameSize
  have hpos : 0 < frameSize := by omega
  -- the byte lies in the chunk of the frame and in the chunk that is written
  have hframe : (p.1.addr.toNat + i) / frameSize = chunkOf frameSize p.1.addr := by
    have hsum : p.1.addr.toNat + i =
        frameSize * (p.1.addr.toNat / frameSize) + (p.1.addr.toNat % frameSize + i) := by omega
    have hsmall : (p.1.addr.toNat % frameSize + i) / frameSize = 0 :=
      Nat.div_eq_of_lt (by omega)
    rw [hsum, Nat.mul_add_div hpos, hsmall, Nat.add_zero, chunkOf]
  have hwritten : (p.1.addr.toNat + i) / frameSize = chunk := by
    obtain ⟨j, hj⟩ := Nat.exists_eq_add_of_le hrange.1
    rw [hj, Nat.add_assoc, Nat.mul_comm, Nat.mul_add_div hpos, Nat.div_eq_of_lt (by omega),
      Nat.add_zero]
  exact hframe.symm.trans hwritten

end Umem

/-! ## The invariant -/

/-- The frames that the kernel has posted, with their descriptors. -/
def posted (log : List XdpEvent) : List (XdpDesc × List UInt8) :=
  log.filterMap fun
    | .posted d frame => some (d, frame)
    | _ => none

/-- The frames that the handler was called with. -/
def handledFrames (log : List XdpEvent) : List (XdpDesc × List UInt8) :=
  log.filterMap fun
    | .handled d frame => some (d, frame)
    | _ => none

namespace XdpSystem

variable {frameCount frameSize : Nat}

/-- The number of RX entries that `poll` has taken into its batch without storing the consumer. -/
def batch (s : XdpSystem frameCount frameSize) : UInt32 :=
  match s.poll with
  | .handling _ available _ => available
  | _ => 0

/-- The chunks in the FILL ring. -/
def fillChunks (s : XdpSystem frameCount frameSize) : List Nat :=
  (s.fill.pending frameCount s.fill.consumer).map (chunkOf frameSize)

/-- The chunks in the RX ring. -/
def rxChunks (s : XdpSystem frameCount frameSize) : List Nat :=
  (s.rx.pending frameCount (s.rx.consumer + s.batch)).map fun d => chunkOf frameSize d.addr

/-- The addresses of the batch of `poll`. -/
def pollAddrs (s : XdpSystem frameCount frameSize) : List UInt64 :=
  match s.poll with
  | .handling cons available _ =>
      (List.range available.toNat).map fun i =>
        (s.rx.descs (slotOf frameCount (cons + UInt32.ofNat i))).addr
  | .released _ recycle => recycle
  | .filling _ _ recycle _ => recycle
  | _ => []

/-- The chunks in the batch of `poll`. -/
def pollChunks (s : XdpSystem frameCount frameSize) : List Nat :=
  s.pollAddrs.map (chunkOf frameSize)

/-- The FILL entry that `poll` writes next. -/
def WritesFill (s : XdpSystem frameCount frameSize) (slot : Nat) : Prop :=
  ∃ available fprod recycle i, s.poll = .filling available fprod recycle i ∧
    i < available.toNat ∧ slot = slotOf frameCount (fprod + UInt32.ofNat i)

/-- The FILL entries that the kernel has not taken. -/
def untakenSlots (s : XdpSystem frameCount frameSize) : List Nat :=
  (List.range (s.fill.producer - s.fill.consumer).toNat).map fun i =>
    slotOf frameCount (s.fill.consumer + UInt32.ofNat i)

/-- Where `poll` can be when `released` frames have been handed back and `done` handled. `batch` is
the number of RX entries it has taken and `busy` the addresses that it has. -/
def PollOk (frameCount : Nat) (fillDescs : Nat → UInt64) (filled : List UInt64) (taken : Nat)
    (frames : List (XdpDesc × List UInt8)) (released done batch : Nat) (busy : List UInt64) :
    PollThread → Prop
  | .idle => batch = 0 ∧ busy = [] ∧ done = released
  | .loadedConsumer cons =>
      batch = 0 ∧ busy = [] ∧ done = released ∧ cons = UInt32.ofNat released
  | .handling cons available recycle =>
      batch = available.toNat ∧ busy = ((frames.drop released).take batch).map (·.1.addr) ∧
        done = released + recycle.length ∧ cons = UInt32.ofNat released ∧
        released + batch ≤ frames.length ∧ recycle.length ≤ batch ∧
        recycle = busy.take recycle.length
  | .released available recycle =>
      batch = 0 ∧ busy = recycle ∧ done = released ∧ recycle.length = available.toNat
  | .filling available fprod recycle i =>
      batch = 0 ∧ busy = recycle ∧ done = released ∧ recycle.length = available.toNat ∧
        fprod = UInt32.ofNat filled.length ∧ i ≤ available.toNat ∧
        Holds frameCount fillDescs (filled ++ recycle.take i) taken

/-- The invariant when the addresses `filled` have been put into the FILL ring and `taken` of them
taken out, the frames `frames` posted, `released` of them handed back, and the frames `done`
handled. -/
structure InvAt (filled : List UInt64) (taken : Nat) (frames done : List (XdpDesc × List UInt8))
    (released batch : Nat) (busy : List UInt64) (s : XdpSystem frameCount frameSize) : Prop where
  fill : RingOk frameCount s.fill filled taken
  rx : RingOk frameCount s.rx (frames.map Prod.fst) released
  inOrder : done <+: frames
  contents : ∀ p ∈ frames.drop done.length, FrameOk frameSize s.umem p
  places : ((filled.drop taken ++ (frames.drop (released + batch)).map (·.1.addr) ++ busy).map
    (chunkOf frameSize) ++ s.held).Perm (List.range frameCount)
  poll : PollOk frameCount s.fill.descs filled taken frames released done.length batch busy s.poll

/-- The invariant. -/
def Inv (log : List XdpEvent) (s : XdpSystem frameCount frameSize) : Prop :=
  ∃ filled taken released batch busy,
    InvAt filled taken (posted log) (handledFrames log) released batch busy s

/-! ## Setup -/

/-- The sizes that `open` accepts. -/
structure ValidSocket (frameCount frameSize : Nat) : Prop where
  ring : ValidRing frameCount
  pos : 0 < frameSize
  fits : frameSize < 2 ^ 32

/-- An address in the UMEM is a 64-bit number. -/
theorem ValidSocket.addr_toNat (hvalid : ValidSocket frameCount frameSize) {chunk offset : Nat}
    (hchunk : chunk < frameCount) (hoffset : offset < frameSize) :
    (UInt64.ofNat (chunk * frameSize + offset)).toNat = chunk * frameSize + offset := by
  have hbound : chunk * frameSize + offset < 2 ^ 64 := by
    calc chunk * frameSize + offset < chunk * frameSize + frameSize := by omega
      _ = (chunk + 1) * frameSize := (Nat.succ_mul chunk frameSize).symm
      _ ≤ 2 ^ 32 * 2 ^ 32 := Nat.mul_le_mul (by have := hvalid.ring.fits; omega) hvalid.fits.le
      _ = 2 ^ 64 := (Nat.pow_add 2 32 32).symm
  exact UInt64.toNat_ofNat_of_lt' hbound

/-- The chunk of an address in the UMEM. -/
theorem ValidSocket.chunkOf_addr (hvalid : ValidSocket frameCount frameSize) {chunk offset : Nat}
    (hchunk : chunk < frameCount) (hoffset : offset < frameSize) :
    chunkOf frameSize (UInt64.ofNat (chunk * frameSize + offset)) = chunk := by
  rw [chunkOf, hvalid.addr_toNat hchunk hoffset, Nat.mul_comm, Nat.mul_add_div hvalid.pos,
    Nat.div_eq_of_lt hoffset, Nat.add_zero]

/-- The entries of the primed FILL ring. -/
theorem primeFill_eq (hvalid : ValidRing frameCount) (descs : Nat → UInt64) {i : Nat}
    (hi : i < frameCount) :
    primeFill frameCount frameSize descs i = UInt64.ofNat (i * frameSize) := by
  have hslot : ∀ j < frameCount, j &&& (ringMask frameCount).toNat = j := by
    intro j hj
    have hfits := hvalid.fits
    rw [ringMask, UInt32.toNat_ofNat_of_lt' (show frameCount - 1 < 2 ^ 32 by omega),
      CyclicBuffer.and_pred_eq_mod hvalid.power, Nat.mod_eq_of_lt hj]
  have hloop : ∀ k ≤ frameCount, ∀ i < k, (List.range k).foldl (fun descs i =>
      Function.update descs (i &&& (ringMask frameCount).toNat) (UInt64.ofNat (i * frameSize)))
      descs i = UInt64.ofNat (i * frameSize) := by
    intro k
    induction k with
    | zero => intro _ i hi; omega
    | succ k ih =>
        intro hk i hi
        rw [List.range_succ, List.foldl_append, List.foldl_cons, List.foldl_nil, hslot k (by omega)]
        by_cases heq : i = k
        · rw [heq, Function.update_self]
        · rw [Function.update_of_ne heq]
          exact ih (by omega) i (by omega)
  exact hloop frameCount le_rfl i hi

/-- `open` succeeds exactly for the sizes that it accepts: a power of two of frames, which the
32-bit counters can tell from none. -/
theorem open_isSome_iff {fillDescs : Nat → UInt64} {rxDescs : Nat → XdpDesc}
    {umem : Nat → UInt8} :
    (openSocket fillDescs rxDescs umem : Option (XdpSystem frameCount frameSize)).isSome ↔
      ValidSocket frameCount frameSize := by
  have hpower : isPowerOfTwo frameCount = true ↔ frameCount.isPowerOfTwo := by
    rw [← Nat.ne_zero_and_sub_one_eq_zero_iff_isPowerOfTwo]
    simp [isPowerOfTwo]
  -- a power of two has the low 32 bits zero exactly if it has more than 32 bits
  have hring : frameCount.isPowerOfTwo → (UInt32.ofNat frameCount ≠ 0 ↔ frameCount < 2 ^ 32) := by
    intro hpow
    rw [Ne, ← UInt32.toNat_inj, UInt32.toNat_ofNat']
    refine ⟨fun hne => ?_, fun hlt => ?_⟩
    · obtain ⟨k, rfl⟩ := hpow
      by_contra hge
      have hk : 32 ≤ k := (Nat.pow_le_pow_iff_right (by decide)).mp (Nat.not_lt.mp hge)
      exact hne (Nat.mod_eq_zero_of_dvd (Nat.pow_dvd_pow 2 hk))
    · rw [Nat.mod_eq_of_lt hlt]
      exact (Nat.pos_of_isPowerOfTwo hpow).ne'
  unfold openSocket
  split
  · next hnot =>
      refine iff_of_false (by simp) fun hvalid => ?_
      rw [hpower.mpr hvalid.ring.power] at hnot
      cases hnot
  next hpow =>
  rw [Bool.not_eq_true, Bool.not_eq_false', hpower] at hpow
  split
  · next hsize =>
      refine iff_of_false (by simp) fun hvalid => ?_
      have hpos := hvalid.pos
      have hfits := hvalid.fits
      omega
  next hsize =>
  split
  · next hzero => exact iff_of_false (by simp) fun hvalid => (hring hpow).mpr hvalid.ring.fits hzero
  · next hne => exact iff_of_true rfl ⟨⟨hpow, (hring hpow).mp hne⟩, by omega, by omega⟩

/-- What `open` sets up: every chunk is in the FILL ring. -/
theorem open_inv {fillDescs : Nat → UInt64} {rxDescs : Nat → XdpDesc} {umem : Nat → UInt8}
    {s : XdpSystem frameCount frameSize} (hopen : openSocket fillDescs rxDescs umem = some s) :
    ValidSocket frameCount frameSize ∧ Inv [] s := by
  have hvalid : ValidSocket frameCount frameSize := open_isSome_iff.mp (by rw [hopen]; rfl)
  unfold openSocket at hopen
  split at hopen
  · cases hopen
  split at hopen
  · cases hopen
  split at hopen
  · cases hopen
  cases hopen
  refine ⟨hvalid, (List.range frameCount).map fun i => UInt64.ofNat (i * frameSize), 0, 0, 0, [],
    ?_, ⟨rfl, rfl, le_rfl, Nat.zero_le _, fun i x _ hx => by cases hx⟩, List.nil_prefix, ?_, ?_,
    rfl, rfl, rfl⟩
  · refine ⟨by simp, rfl, Nat.zero_le _, by simp, fun i x _ hx => ?_⟩
    rw [List.getElem?_map, Option.map_eq_some_iff] at hx
    obtain ⟨j, hj, rfl⟩ := hx
    obtain ⟨hlt, hget⟩ := List.getElem?_eq_some_iff.mp hj
    rw [List.length_range] at hlt
    rw [List.getElem_range] at hget
    rw [Nat.mod_eq_of_lt hlt, ← hget]
    exact primeFill_eq hvalid.ring fillDescs hlt
  · intro p hp
    cases hp
  · have hchunks : ((List.range frameCount).map fun i => UInt64.ofNat (i * frameSize)).map
        (chunkOf frameSize) = List.range frameCount := by
      rw [List.map_map]
      refine (List.map_congr_left fun i hi => ?_).trans (List.map_id _)
      exact hvalid.chunkOf_addr (List.mem_range.mp hi) hvalid.pos
    simp only [posted, List.filterMap_nil, List.drop_nil, List.map_nil, List.append_nil,
      List.drop_zero, hchunks]
    exact List.Perm.refl _

/-! ## The steps of `poll` -/

section Steps

variable {filled : List UInt64} {taken : Nat} {frames done : List (XdpDesc × List UInt8)}
  {released batch : Nat} {busy : List UInt64} {s : XdpSystem frameCount frameSize}

/-- The FILL ring has room for the batch. -/
theorem InvAt.room (h : InvAt filled taken frames done released batch busy s) :
    filled.length + busy.length ≤ taken + frameCount := by
  have hlen := h.places.length_eq
  simp only [List.length_append, List.length_map, List.length_drop, List.length_range] at hlen
  have hle := h.fill.le
  omega

/-- A frame that is still to be handled is in the RX ring or in the batch. -/
theorem InvAt.located (h : InvAt filled taken frames done released batch busy s)
    {p : XdpDesc × List UInt8} (hp : p ∈ frames.drop done.length) :
    p.1.addr ∈ (frames.drop (released + batch)).map (·.1.addr) ++ busy := by
  have hpoll := h.poll
  have hring : done.length = released → batch = 0 → p.1.addr ∈
      (frames.drop (released + batch)).map (·.1.addr) ++ busy := by
    rintro hdone rfl
    rw [hdone] at hp
    exact List.mem_append_left _ (List.mem_map_of_mem hp)
  cases hat : s.poll with
  | idle =>
      rw [hat] at hpoll
      exact hring hpoll.2.2 hpoll.1
  | loadedConsumer cons =>
      rw [hat] at hpoll
      exact hring hpoll.2.2.1 hpoll.1
  | handling cons available recycle =>
      rw [hat] at hpoll
      obtain ⟨-, hbusy, hdone, -⟩ := hpoll
      have hmem : p ∈ frames.drop released := by
        rw [hdone, ← List.drop_drop] at hp
        exact List.mem_of_mem_drop hp
      rw [← List.take_append_drop batch (frames.drop released), List.drop_drop] at hmem
      rw [hbusy, ← List.map_append]
      refine List.mem_map_of_mem ?_
      exact List.mem_append.mpr (List.mem_append.mp hmem).symm
  | released available recycle =>
      rw [hat] at hpoll
      exact hring hpoll.2.2.1 hpoll.1
  | filling available fprod recycle i =>
      rw [hat] at hpoll
      exact hring hpoll.2.2.1 hpoll.1

/-- `poll` loads the RX consumer. -/
theorem InvAt.loadConsumer (h : InvAt filled taken frames done released batch busy s)
    (hat : s.poll = .idle) :
    InvAt filled taken frames done released batch busy
      ({ s with poll := .loadedConsumer s.rx.consumer } : XdpSystem frameCount frameSize) := by
  have hpoll := h.poll
  rw [hat] at hpoll
  exact ⟨h.fill, h.rx, h.inOrder, h.contents, h.places, hpoll.1, hpoll.2.1, hpoll.2.2,
    h.rx.consumer⟩

/-- `poll` finds nothing. -/
theorem InvAt.findNone (h : InvAt filled taken frames done released batch busy s)
    {cons : UInt32} (hat : s.poll = .loadedConsumer cons) :
    InvAt filled taken frames done released batch busy
      ({ s with poll := .idle } : XdpSystem frameCount frameSize) := by
  have hpoll := h.poll
  rw [hat] at hpoll
  exact ⟨h.fill, h.rx, h.inOrder, h.contents, h.places, hpoll.1, hpoll.2.1, hpoll.2.2.1⟩

/-- `poll` takes a batch. -/
theorem InvAt.findBatch (hvalid : ValidSocket frameCount frameSize)
    (h : InvAt filled taken frames done released batch busy s) {cons : UInt32}
    (hat : s.poll = .loadedConsumer cons) :
    InvAt filled taken frames done released (batchSize (s.rx.producer - cons)).toNat
      (((frames.drop released).take (batchSize (s.rx.producer - cons)).toNat).map (·.1.addr))
      ({ s with poll := .handling cons (batchSize (s.rx.producer - cons)) [] } :
        XdpSystem frameCount frameSize) := by
  have hpoll := h.poll
  rw [hat] at hpoll
  obtain ⟨rfl, rfl, hdone, hcons⟩ := hpoll
  have hle := h.rx.le
  rw [List.length_map] at hle
  have havailable : (s.rx.producer - cons).toNat = frames.length - released := by
    rw [hcons, h.rx.distance hvalid.ring le_rfl h.rx.le, List.length_map]
  have hbatch : (batchSize (s.rx.producer - cons)).toNat ≤ frames.length - released := by
    rw [← havailable, batchSize]
    split
    · next hmore => exact (UInt32.lt_iff_toNat_lt.mp hmore).le
    · exact le_rfl
  generalize (batchSize (s.rx.producer - cons)) = available at hbatch ⊢
  refine ⟨h.fill, h.rx, h.inOrder, h.contents, ?_, rfl, rfl, ?_, hcons, by omega, Nat.zero_le _,
    rfl⟩
  · refine List.Perm.trans (List.perm_iff_count.mpr fun chunk => ?_) h.places
    have hsplit := congrArg (fun l => ((l.map (·.1.addr)).map (chunkOf frameSize)).count chunk)
      (List.take_append_drop available.toNat (frames.drop released))
    simp only [List.map_append, List.count_append, List.drop_drop, Nat.add_zero, List.append_nil]
      at hsplit ⊢
    omega
  · rw [hdone]
    rfl

/-- `poll` calls the handler with the next frame of its batch: it is the next frame that the kernel
has posted. -/
theorem InvAt.handleFrame (hvalid : ValidSocket frameCount frameSize)
    (h : InvAt filled taken frames done released batch busy s) {cons available : UInt32}
    {recycle : List UInt64} (hat : s.poll = .handling cons available recycle)
    (hmore : recycle.length < available.toNat) {d : XdpDesc}
    (hd : d = s.rx.descs (slotOf frameCount (cons + UInt32.ofNat recycle.length))) :
    InvAt filled taken frames (done ++ [(d, readBytes s.umem d.addr.toNat d.len.toNat)]) released
      batch busy ({ s with poll := .handling cons available (recycle ++ [d.addr]) } :
        XdpSystem frameCount frameSize) := by
  have hpoll := h.poll
  rw [hat] at hpoll
  obtain ⟨hbatch, hbusy, hdone, hcons, hle, -, hrecycle⟩ := hpoll
  obtain ⟨p, hp⟩ : ∃ p, frames[done.length]? = some p :=
    ⟨_, List.getElem?_eq_getElem (show done.length < frames.length by omega)⟩
  -- the descriptor read from the ring is that of the next posted frame
  have hentry : d = p.1 := by
    rw [hd, hcons, ← UInt32.ofNat_add]
    refine h.rx.entry hvalid.ring (Nat.le_add_right _ _) ?_
    rw [List.getElem?_map, ← hdone, hp]
    rfl
  have hdrop : frames.drop done.length = p :: frames.drop (done.length + 1) := by
    obtain ⟨hlt, rfl⟩ := List.getElem?_eq_some_iff.mp hp
    exact List.drop_eq_getElem_cons hlt
  have hframe : FrameOk frameSize s.umem p := h.contents p (by rw [hdrop]; exact List.mem_cons_self)
  have hnext : (d, readBytes s.umem d.addr.toNat d.len.toNat) = p := by
    rw [hentry, hframe.length, hframe.bytes]
  rw [hnext]
  have hdone' : (done ++ [p]).length = done.length + 1 := by simp
  refine ⟨h.fill, h.rx, ?_, ?_, h.places, hbatch, hbusy, ?_, hcons, hle, ?_, ?_⟩
  · obtain ⟨rest, hrest⟩ := h.inOrder
    rw [← hrest, List.drop_left] at hdrop
    rw [← hrest, hdrop]
    exact ⟨_, List.append_assoc _ _ _⟩
  · intro q hq
    rw [hdone'] at hq
    exact h.contents q (by rw [hdrop]; exact List.mem_cons_of_mem _ hq)
  · rw [hdone', hdone, List.length_append, List.length_singleton, Nat.add_assoc]
  · rw [List.length_append, List.length_singleton]
    omega
  · -- the address joins those that wait for the FILL ring
    have hget : busy[recycle.length]? = some d.addr := by
      rw [hbusy, List.getElem?_map, List.getElem?_take_of_lt (by omega), List.getElem?_drop,
        ← hdone, hp, hentry]
      rfl
    rw [List.length_append, List.length_singleton, List.take_add_one, hget, ← hrecycle]
    rfl

/-- `poll` hands the RX entries of its batch back. -/
theorem InvAt.storeConsumer (h : InvAt filled taken frames done released batch busy s)
    {cons available : UInt32} {recycle : List UInt64}
    (hat : s.poll = .handling cons available recycle) (hall : recycle.length = available.toNat) :
    InvAt filled taken frames done (released + batch) 0 recycle
      ({ s with
        rx := { s.rx with consumer := cons + available }
        poll := .released available recycle } : XdpSystem frameCount frameSize) := by
  have hpoll := h.poll
  rw [hat] at hpoll
  obtain ⟨hbatch, hbusy, hdone, hcons, hle, -, hrecycle⟩ := hpoll
  have hsame : recycle = busy := by
    rw [hrecycle]
    refine List.take_of_length_le ?_
    rw [hbusy, List.length_map, List.length_take]
    omega
  have hroom := h.rx.room
  rw [List.length_map] at hroom
  refine ⟨h.fill, ⟨h.rx.producer, ?_, ?_, ?_, h.rx.holds.mono (Nat.le_add_right _ _)⟩, h.inOrder,
    h.contents, ?_, rfl, rfl, ?_, hall⟩
  · rw [hcons, hbatch, UInt32.ofNat_add, UInt32.ofNat_toNat]
  · rw [List.length_map]
    exact hle
  · rw [List.length_map]
    omega
  · rw [Nat.add_zero, hsame]
    exact h.places
  · rw [hdone, hall, hbatch]

/-- `poll` loads the FILL producer. -/
theorem InvAt.loadFillProducer (h : InvAt filled taken frames done released batch busy s)
    {available : UInt32} {recycle : List UInt64} (hat : s.poll = .released available recycle) :
    InvAt filled taken frames done released batch busy
      ({ s with poll := .filling available s.fill.producer recycle 0 } :
        XdpSystem frameCount frameSize) := by
  have hpoll := h.poll
  rw [hat] at hpoll
  obtain ⟨hbatch, hbusy, hdone, hlen⟩ := hpoll
  refine ⟨h.fill, h.rx, h.inOrder, h.contents, h.places, hbatch, hbusy, hdone, hlen,
    h.fill.producer, Nat.zero_le _, ?_⟩
  rw [List.take_zero, List.append_nil]
  exact h.fill.holds

/-- `poll` writes an address into the FILL ring: the entry is free. -/
theorem InvAt.writeFill (hvalid : ValidSocket frameCount frameSize)
    (h : InvAt filled taken frames done released batch busy s) {available fprod : UInt32}
    {recycle : List UInt64} {i : Nat} (hat : s.poll = .filling available fprod recycle i)
    (hmore : i < available.toNat) :
    InvAt filled taken frames done released batch busy
      ({ s with
        fill := { s.fill with
          descs := Function.update s.fill.descs (slotOf frameCount (fprod + UInt32.ofNat i))
            (recycle.getD i 0) }
        poll := .filling available fprod recycle (i + 1) } : XdpSystem frameCount frameSize) := by
  have hpoll := h.poll
  rw [hat] at hpoll
  obtain ⟨hbatch, hbusy, hdone, hlen, hfprod, hle, hholds⟩ := hpoll
  have hroom := h.room
  rw [hbusy] at hroom
  have hwritten : (filled ++ recycle.take i).length = filled.length + i := by
    rw [List.length_append, List.length_take]
    omega
  have hslot : slotOf frameCount (fprod + UInt32.ofNat i) =
      (filled ++ recycle.take i).length % frameCount := by
    rw [hfprod, ← UInt32.ofNat_add, hvalid.ring.slotOf_ofNat, hwritten]
  have hget : recycle[i]? = some (recycle.getD i 0) := by
    rw [List.getElem?_eq_getElem (by omega), List.getD_eq_getElem?_getD,
      List.getElem?_eq_getElem (by omega), Option.getD_some]
  have hnext : Holds frameCount
      (Function.update s.fill.descs (slotOf frameCount (fprod + UInt32.ofNat i))
        (recycle.getD i 0)) (filled ++ recycle.take (i + 1)) taken := by
    rw [hslot, List.take_add_one, hget, ← List.append_assoc]
    exact (hholds.write (by omega) _).push (Function.update_self _ _ _)
  refine ⟨⟨h.fill.producer, h.fill.consumer, h.fill.le, h.fill.room, hnext.of_append⟩, h.rx,
    h.inOrder, h.contents, h.places, hbatch, hbusy, hdone, hlen, hfprod, by omega, hnext⟩

/-- `poll` hands its batch back to the kernel. -/
theorem InvAt.storeFillProducer (h : InvAt filled taken frames done released batch busy s)
    {available fprod : UInt32} {recycle : List UInt64} {i : Nat}
    (hat : s.poll = .filling available fprod recycle i) (hall : i = available.toNat) :
    InvAt (filled ++ recycle) taken frames done released batch []
      ({ s with fill := { s.fill with producer := fprod + available }, poll := .idle } :
        XdpSystem frameCount frameSize) := by
  have hpoll := h.poll
  rw [hat] at hpoll
  obtain ⟨hbatch, hbusy, hdone, hlen, hfprod, -, hholds⟩ := hpoll
  have hroom := h.room
  rw [hbusy] at hroom
  rw [hall, ← hlen, List.take_length] at hholds
  refine ⟨⟨?_, h.fill.consumer, ?_, ?_, hholds⟩, h.rx, h.inOrder, h.contents, ?_, hbatch, rfl,
    hdone⟩
  · rw [hfprod, List.length_append, hlen, UInt32.ofNat_add, UInt32.ofNat_toNat]
  · rw [List.length_append]
    exact h.fill.le.trans (Nat.le_add_right _ _)
  · rw [List.length_append]
    omega
  · refine List.Perm.trans (List.perm_iff_count.mpr fun chunk => ?_) h.places
    rw [hbusy, List.drop_append_of_le_length h.fill.le]
    simp only [List.map_append, List.count_append, List.append_nil]
    omega

/-! ## The steps of the kernel -/

/-- The kernel takes an entry off the FILL ring. -/
theorem InvAt.take (hvalid : ValidSocket frameCount frameSize)
    (h : InvAt filled taken frames done released batch busy s)
    (hsome : s.fill.consumer ≠ s.fill.producer) :
    InvAt filled (taken + 1) frames done released batch busy
      ({ s with
        fill := { s.fill with consumer := s.fill.consumer + 1 }
        held := (s.fill.descs (slotOf frameCount s.fill.consumer)).toNat / frameSize :: s.held } :
        XdpSystem frameCount frameSize) := by
  have hlt : taken < filled.length := by
    refine lt_of_le_of_ne h.fill.le fun heq => hsome ?_
    rw [h.fill.consumer, h.fill.producer, heq]
  have hentry : s.fill.descs (slotOf frameCount s.fill.consumer) = filled[taken] := by
    rw [h.fill.consumer]
    exact h.fill.entry hvalid.ring le_rfl (List.getElem?_eq_getElem hlt)
  have hroom := h.fill.room
  refine ⟨⟨h.fill.producer, ?_, hlt, by omega, h.fill.holds.pop⟩, h.rx, h.inOrder, h.contents, ?_,
    ?_⟩
  · rw [h.fill.consumer, UInt32.ofNat_add]
    rfl
  · refine List.Perm.trans (List.perm_iff_count.mpr fun chunk => ?_) h.places
    rw [hentry, List.drop_eq_getElem_cons hlt]
    simp only [List.map_append, List.map_cons, List.count_append, List.count_cons, chunkOf]
    omega
  · have hpoll := h.poll
    cases hat : s.poll with
    | idle => rw [hat] at hpoll; exact hpoll
    | loadedConsumer cons => rw [hat] at hpoll; exact hpoll
    | handling cons available recycle => rw [hat] at hpoll; exact hpoll
    | released available recycle => rw [hat] at hpoll; exact hpoll
    | filling available fprod recycle i =>
        rw [hat] at hpoll
        obtain ⟨hbatch, hbusy, hdone, hlen, hfprod, hle, hholds⟩ := hpoll
        exact ⟨hbatch, hbusy, hdone, hlen, hfprod, hle, hholds.pop⟩

/-- Where `poll` is does not depend on frames that are posted later. -/
theorem PollOk.post {fillDescs : Nat → UInt64} {poll : PollThread} {p : XdpDesc × List UInt8}
    (h : PollOk frameCount fillDescs filled taken frames released done.length batch busy poll) :
    PollOk frameCount fillDescs filled taken (frames ++ [p]) released done.length batch busy
      poll := by
  cases poll with
  | idle => exact h
  | loadedConsumer cons => exact h
  | handling cons available recycle =>
      obtain ⟨hbatch, hbusy, hdone, hcons, hle, hlen, hrecycle⟩ := h
      refine ⟨hbatch, ?_, hdone, hcons, ?_, hlen, hrecycle⟩
      · rw [List.drop_append_of_le_length (by omega), List.take_append_of_le_length (by
          rw [List.length_drop]; omega)]
        exact hbusy
      · rw [List.length_append]
        omega
  | released available recycle => exact h
  | filling available fprod recycle i => exact h

/-- The batch is part of what was posted. -/
theorem InvAt.batch_le (h : InvAt filled taken frames done released batch busy s) :
    released + batch ≤ frames.length := by
  have hpoll := h.poll
  have hle := h.rx.le
  rw [List.length_map] at hle
  cases hat : s.poll with
  | handling cons available recycle => rw [hat] at hpoll; exact hpoll.2.2.2.2.1
  | idle => rw [hat] at hpoll; rw [hpoll.1]; exact hle
  | loadedConsumer cons => rw [hat] at hpoll; rw [hpoll.1]; exact hle
  | released available recycle => rw [hat] at hpoll; rw [hpoll.1]; exact hle
  | filling available fprod recycle i => rw [hat] at hpoll; rw [hpoll.1]; exact hle

/-- The kernel writes a frame into a chunk that it holds and posts it: no frame that is still to be
handled is touched. -/
theorem InvAt.post (hvalid : ValidSocket frameCount frameSize)
    (h : InvAt filled taken frames done released batch busy s) {chunk offset : Nat}
    {frame : List UInt8} (hheld : chunk ∈ s.held) (hoffset : offset < frameSize)
    (hinside : offset + frame.length ≤ frameSize)
    (hroom : s.rx.producer - s.rx.consumer < UInt32.ofNat frameCount) {d : XdpDesc}
    (hd : d = ⟨UInt64.ofNat (chunk * frameSize + offset), UInt32.ofNat frame.length⟩) :
    InvAt filled taken (frames ++ [(d, frame)]) done released batch busy
      ({ s with
        rx := { s.rx with
          producer := s.rx.producer + 1
          descs := Function.update s.rx.descs (slotOf frameCount s.rx.producer) d }
        umem := writeBytes s.umem (chunk * frameSize + offset) frame
        held := s.held.erase chunk } : XdpSystem frameCount frameSize) := by
  have hchunk : chunk < frameCount :=
    List.mem_range.mp (h.places.mem_iff.mp (List.mem_append_right _ hheld))
  have haddr : d.addr.toNat = chunk * frameSize + offset := by
    rw [hd]
    exact hvalid.addr_toNat hchunk hoffset
  have hchunkOf : chunkOf frameSize d.addr = chunk := by
    rw [hd]
    exact hvalid.chunkOf_addr hchunk hoffset
  have hlt : frames.length < released + frameCount := by
    have hused := h.rx.used hvalid.ring
    have hlt := UInt32.lt_iff_toNat_lt.mp hroom
    rw [hused, List.length_map, UInt32.toNat_ofNat_of_lt' hvalid.ring.fits] at hlt
    omega
  have hslot : slotOf frameCount s.rx.producer = (frames.map Prod.fst).length % frameCount := by
    rw [h.rx.producer, hvalid.ring.slotOf_ofNat]
  have hle := h.rx.le
  rw [List.length_map] at hle
  refine ⟨h.fill, ⟨?_, h.rx.consumer, ?_, ?_, ?_⟩, ?_, ?_, ?_, h.poll.post⟩
  · rw [h.rx.producer, List.map_append, List.length_append, UInt32.ofNat_add]
    rfl
  · rw [List.length_map, List.length_append]
    omega
  · rw [List.length_map, List.length_append, List.length_singleton]
    omega
  · rw [List.map_append, hslot]
    exact (h.rx.holds.write (by rw [List.length_map]; exact hlt) d).push
      (Function.update_self _ _ _)
  · exact h.inOrder.trans (List.prefix_append _ _)
  · intro p hp
    rw [List.drop_append_of_le_length h.inOrder.length_le, List.mem_append] at hp
    rcases hp with hp | hp
    · -- an earlier frame lies in another chunk
      refine (h.contents p hp).write hinside fun heq => ?_
      have hnodup := List.nodup_append.mp (h.places.nodup_iff.mpr List.nodup_range)
      refine hnodup.2.2 _ (List.mem_map_of_mem ?_) _ hheld heq
      rw [List.append_assoc]
      exact List.mem_append_right _ (h.located hp)
    · rw [List.mem_singleton.mp hp]
      refine ⟨?_, ?_, ?_⟩
      · rw [hd]
        have hfits := hvalid.fits
        exact UInt32.toNat_ofNat_of_lt' (show frame.length < 2 ^ 32 by omega)
      · rw [haddr, Nat.mul_comm, Nat.mul_add_mod, Nat.mod_eq_of_lt hoffset]
        exact hinside
      · rw [haddr]
        exact readBytes_writeBytes _ _ _
  · refine List.Perm.trans (List.perm_iff_count.mpr fun c => ?_) h.places
    have herase := (List.perm_cons_erase hheld).count_eq c
    rw [List.drop_append_of_le_length h.batch_le]
    simp only [List.map_append, List.map_cons, List.map_nil, List.count_append, hchunkOf,
      List.count_cons, List.count_nil] at herase ⊢
    omega

end Steps

/-! ## Runs -/

section Runs

variable {log : List XdpEvent} {s s' : XdpSystem frameCount frameSize} {events : List XdpEvent}

section Events

variable {filled : List UInt64} {taken released batch : Nat} {busy : List UInt64}

/-- The invariant after a step without an event. -/
theorem InvAt.log_nothing
    (h : InvAt filled taken (posted log) (handledFrames log) released batch busy s') :
    Inv (log ++ []) s' := by
  rw [List.append_nil]
  exact ⟨_, _, _, _, _, h⟩

/-- The invariant after a call of the handler. -/
theorem InvAt.log_handled {d : XdpDesc} {frame : List UInt8}
    (h : InvAt filled taken (posted log) (handledFrames log ++ [(d, frame)]) released batch busy
      s') : Inv (log ++ [.handled d frame]) s' := by
  have hposted : posted (log ++ [.handled d frame]) = posted log ++ [] := List.filterMap_append
  have hhandled : handledFrames (log ++ [.handled d frame]) =
      handledFrames log ++ [(d, frame)] := List.filterMap_append
  unfold Inv
  rw [hposted, hhandled, List.append_nil]
  exact ⟨_, _, _, _, _, h⟩

/-- The invariant after the kernel has posted a frame. -/
theorem InvAt.log_posted {d : XdpDesc} {frame : List UInt8}
    (h : InvAt filled taken (posted log ++ [(d, frame)]) (handledFrames log) released batch busy
      s') : Inv (log ++ [.posted d frame]) s' := by
  have hposted : posted (log ++ [.posted d frame]) = posted log ++ [(d, frame)] :=
    List.filterMap_append
  have hhandled : handledFrames (log ++ [.posted d frame]) = handledFrames log ++ [] :=
    List.filterMap_append
  unfold Inv
  rw [hposted, hhandled, List.append_nil]
  exact ⟨_, _, _, _, _, h⟩

end Events

/-- Every step keeps the invariant. -/
theorem step_inv (hvalid : ValidSocket frameCount frameSize) (hinv : Inv log s) {a : XdpStep}
    (hstep : s.step a = some (s', events)) : Inv (log ++ events) s' := by
  obtain ⟨filled, taken, released, batch, busy, h⟩ := hinv
  -- a step that is not possible here returns nothing; every other one has its lemma above
  cases a with
  | loadConsumer =>
      simp only [step] at hstep
      split at hstep
      · next hat =>
          cases hstep
          exact (h.loadConsumer hat).log_nothing
      · cases hstep
  | loadProducer =>
      simp only [step] at hstep
      split at hstep
      · next cons hat =>
          split at hstep
          · cases hstep
            exact (h.findNone hat).log_nothing
          · cases hstep
            exact (h.findBatch hvalid hat).log_nothing
      · cases hstep
  | handleFrame =>
      simp only [step] at hstep
      split at hstep
      · next cons available recycle hat =>
          split at hstep
          · next hmore =>
              cases hstep
              exact (h.handleFrame hvalid hat hmore rfl).log_handled
          · cases hstep
      · cases hstep
  | storeConsumer =>
      simp only [step] at hstep
      split at hstep
      · next cons available recycle hat =>
          split at hstep
          · next hall =>
              cases hstep
              exact (h.storeConsumer hat hall).log_nothing
          · cases hstep
      · cases hstep
  | loadFillProducer =>
      simp only [step] at hstep
      split at hstep
      · next available recycle hat =>
          cases hstep
          exact (h.loadFillProducer hat).log_nothing
      · cases hstep
  | writeFill =>
      simp only [step] at hstep
      split at hstep
      · next available fprod recycle i hat =>
          split at hstep
          · next hmore =>
              cases hstep
              exact (h.writeFill hvalid hat hmore).log_nothing
          · cases hstep
      · cases hstep
  | storeFillProducer =>
      simp only [step] at hstep
      split at hstep
      · next available fprod recycle i hat =>
          split at hstep
          · next hall =>
              cases hstep
              exact (h.storeFillProducer hat hall).log_nothing
          · cases hstep
      · cases hstep
  | take =>
      simp only [step] at hstep
      split at hstep
      · cases hstep
      · next hsome =>
          cases hstep
          exact (h.take hvalid hsome).log_nothing
  | post chunk offset frame =>
      simp only [step] at hstep
      split at hstep
      · next hpost =>
          cases hstep
          obtain ⟨hheld, hoffset, hinside, hroom⟩ := hpost
          exact (h.post hvalid hheld hoffset hinside hroom rfl).log_posted
      · cases hstep

/-- Every interleaving keeps the invariant. -/
theorem run_inv (hvalid : ValidSocket frameCount frameSize) (hinv : Inv log s)
    {steps : List XdpStep} (hrun : s.run steps = some (s', events)) : Inv (log ++ events) s' := by
  induction steps generalizing s log events with
  | nil =>
      cases hrun
      rw [List.append_nil]
      exact hinv
  | cons a steps ih =>
      obtain ⟨⟨s₁, events₁⟩, hstep, hrest⟩ := Option.bind_eq_some_iff.mp hrun
      obtain ⟨⟨s₂, events₂⟩, hrun₂, hlast⟩ := Option.bind_eq_some_iff.mp hrest
      cases hlast
      rw [← List.append_assoc]
      exact ih (step_inv hvalid hinv hstep) hrun₂

end Runs

/-! ## What the parties can rely on -/

/-- Who has the chunks, and what the handler is called with. -/
structure Owns (log : List XdpEvent) (s : XdpSystem frameCount frameSize) : Prop where
  /-- Each chunk is in exactly one place. -/
  places : (s.fillChunks ++ s.held ++ s.rxChunks ++ s.pollChunks).Perm (List.range frameCount)
  /-- The FILL ring does not overflow. -/
  bounded : (s.fill.producer - s.fill.consumer).toNat ≤ frameCount
  /-- `poll` does not overwrite a FILL entry that the kernel has not taken. -/
  untouched : ∀ slot, s.WritesFill slot → slot ∉ s.untakenSlots
  /-- A chunk of the batch is not in the hands of anybody else. -/
  apart : ∀ chunk ∈ s.pollChunks, chunk ∉ s.fillChunks ∧ chunk ∉ s.held ∧ chunk ∉ s.rxChunks
  /-- The handler is called once for each descriptor, in the order of the RX ring, with the frame
  that the kernel has written. -/
  inOrder : handledFrames log <+: posted log
  /-- Between two calls of `poll` the frames that have not been handled are in the RX ring. -/
  waiting : s.poll = .idle →
    (posted log).length = (handledFrames log).length + (s.rx.producer - s.rx.consumer).toNat

section Views

variable {filled : List UInt64} {taken : Nat} {frames done : List (XdpDesc × List UInt8)}
  {released batch : Nat} {busy : List UInt64} {s : XdpSystem frameCount frameSize}

/-- The chunks in the FILL ring. -/
theorem InvAt.fillChunks_eq (hvalid : ValidSocket frameCount frameSize)
    (h : InvAt filled taken frames done released batch busy s) :
    s.fillChunks = (filled.drop taken).map (chunkOf frameSize) := by
  rw [fillChunks, h.fill.consumer, h.fill.pending_eq hvalid.ring le_rfl h.fill.le]

/-- The number of RX entries in the batch. -/
theorem InvAt.batch_eq (h : InvAt filled taken frames done released batch busy s) :
    s.batch = UInt32.ofNat batch := by
  have hpoll := h.poll
  unfold XdpSystem.batch
  cases hat : s.poll with
  | handling cons available recycle =>
      rw [hat] at hpoll
      rw [hpoll.1, UInt32.ofNat_toNat]
  | idle => rw [hat] at hpoll; rw [hpoll.1]; rfl
  | loadedConsumer cons => rw [hat] at hpoll; rw [hpoll.1]; rfl
  | released available recycle => rw [hat] at hpoll; rw [hpoll.1]; rfl
  | filling available fprod recycle i => rw [hat] at hpoll; rw [hpoll.1]; rfl

/-- The chunks in the RX ring. -/
theorem InvAt.rxChunks_eq (hvalid : ValidSocket frameCount frameSize)
    (h : InvAt filled taken frames done released batch busy s) :
    s.rxChunks = ((frames.drop (released + batch)).map (·.1.addr)).map (chunkOf frameSize) := by
  rw [rxChunks, h.rx.consumer, h.batch_eq, ← UInt32.ofNat_add,
    h.rx.pending_eq hvalid.ring (Nat.le_add_right _ _)
      (by rw [List.length_map]; exact h.batch_le), ← List.map_drop, List.map_map, List.map_map]
  rfl

/-- The chunks in the batch. -/
theorem InvAt.pollAddrs_eq (hvalid : ValidSocket frameCount frameSize)
    (h : InvAt filled taken frames done released batch busy s) : s.pollAddrs = busy := by
  have hpoll := h.poll
  unfold pollAddrs
  cases hat : s.poll with
  | idle => rw [hat] at hpoll; exact hpoll.2.1.symm
  | loadedConsumer cons => rw [hat] at hpoll; exact hpoll.2.1.symm
  | released available recycle => rw [hat] at hpoll; exact hpoll.2.1.symm
  | filling available fprod recycle i => rw [hat] at hpoll; exact hpoll.2.1.symm
  | handling cons available recycle =>
      rw [hat] at hpoll
      obtain ⟨hbatch, hbusy, -, hcons, hle, -, -⟩ := hpoll
      rw [hbusy, hbatch]
      refine List.ext_getElem (by simp; omega) fun i hi hi' => ?_
      rw [List.length_map, List.length_range] at hi
      have hget : (frames.map Prod.fst)[released + i]? = some frames[released + i].1 := by
        rw [List.getElem?_map, List.getElem?_eq_getElem (by omega)]
        rfl
      have hentry := h.rx.entry hvalid.ring (Nat.le_add_right released i) hget
      rw [List.getElem_map, List.getElem_range, List.getElem_map, List.getElem_take,
        List.getElem_drop, hcons, ← UInt32.ofNat_add, hentry]

/-- What the invariant means for the parties. -/
theorem InvAt.owns {log : List XdpEvent} (hvalid : ValidSocket frameCount frameSize)
    (h : InvAt filled taken (posted log) (handledFrames log) released batch busy s) :
    Owns log s := by
  -- the four views are the four parts of `places`, in another order
  have hplaces : (s.fillChunks ++ s.held ++ s.rxChunks ++ s.pollChunks).Perm
      (List.range frameCount) := by
    refine List.Perm.trans (List.perm_iff_count.mpr fun chunk => ?_) h.places
    rw [h.fillChunks_eq hvalid, h.rxChunks_eq hvalid, pollChunks, h.pollAddrs_eq hvalid]
    simp only [List.map_append, List.count_append]
    omega
  have hroom := h.fill.room
  have hused := h.fill.used hvalid.ring
  refine ⟨hplaces, by omega, ?_, ?_, h.inOrder, fun hidle => ?_⟩
  · rintro slot ⟨available, fprod, recycle, i, hat, hmore, rfl⟩ hmem
    obtain ⟨j, hj, heq⟩ := List.mem_map.mp hmem
    have hjlt := List.mem_range.mp hj
    have hpoll := h.poll
    rw [hat] at hpoll
    obtain ⟨-, hbusy, -, hlen, hfprod, -, -⟩ := hpoll
    have hfree := h.room
    rw [hbusy] at hfree
    rw [h.fill.consumer, hfprod, ← UInt32.ofNat_add, ← UInt32.ofNat_add, hvalid.ring.slotOf_ofNat,
      hvalid.ring.slotOf_ofNat] at heq
    -- fewer than `frameCount` positions lie between the two, so their slots are different
    exact CyclicBuffer.mod_ne_mod (show taken + j < filled.length + i by omega) (by omega) heq
  · intro chunk hchunk
    have hnodup := List.nodup_append.mp (hplaces.nodup_iff.mpr List.nodup_range)
    have hother : chunk ∉ s.fillChunks ++ s.held ++ s.rxChunks := fun hmem =>
      hnodup.2.2 _ hmem _ hchunk rfl
    simp only [List.mem_append, not_or] at hother
    exact ⟨hother.1.1, hother.1.2, hother.2⟩
  · have hpoll := h.poll
    rw [hidle] at hpoll
    have hle := h.rx.le
    rw [h.rx.used hvalid.ring, hpoll.2.2]
    rw [List.length_map] at hle ⊢
    omega

end Views

/-- In every interleaving of `poll` with the kernel, from the primed FILL ring, every chunk has one
owner, no entry of the FILL ring is overwritten, and each frame is handled once and in order. -/
theorem run_owns {fillDescs : Nat → UInt64} {rxDescs : Nat → XdpDesc} {umem : Nat → UInt8}
    {s₀ : XdpSystem frameCount frameSize} (hopen : openSocket fillDescs rxDescs umem = some s₀)
    (steps : List XdpStep) (s : XdpSystem frameCount frameSize) (log : List XdpEvent)
    (hrun : s₀.run steps = some (s, log)) : Owns log s := by
  obtain ⟨hvalid, hinv⟩ := open_inv hopen
  obtain ⟨filled, taken, released, batch, busy, h⟩ := run_inv hvalid hinv hrun
  rw [List.nil_append] at h
  exact h.owns hvalid

/-- A frame is handled while the kernel posts the next one, and its chunk goes back. -/
theorem run_owns_two_frames :
    ∃ (s₀ s : XdpSystem 2 4) (log : List XdpEvent),
      openSocket (fun _ => 0) (fun _ => ⟨0, 0⟩) (fun _ => 0) = some s₀ ∧
      s₀.run [.take, .take, .post 1 1 [7, 8], .loadConsumer, .loadProducer, .handleFrame,
        .post 0 0 [9], .storeConsumer, .loadFillProducer, .writeFill, .storeFillProducer, .take] =
        some (s, log) ∧
      (posted log).map Prod.snd = [[7, 8], [9]] ∧ (handledFrames log).map Prod.snd = [[7, 8]] ∧
      s.held = [1] ∧ Owns log s := by
  have hview : ((openSocket (fun _ => 0) (fun _ => ⟨0, 0⟩) (fun _ => 0) :
      Option (XdpSystem 2 4)).bind fun s₀ => (s₀.run [.take, .take, .post 1 1 [7, 8],
        .loadConsumer, .loadProducer, .handleFrame, .post 0 0 [9], .storeConsumer,
        .loadFillProducer, .writeFill, .storeFillProducer, .take]).map fun r =>
          ((posted r.2).map Prod.snd, (handledFrames r.2).map Prod.snd, r.1.held)) =
      some ([[7, 8], [9]], [[7, 8]], [1]) := by decide +kernel
  obtain ⟨s₀, hopen, hrest⟩ := Option.bind_eq_some_iff.mp hview
  obtain ⟨⟨s, log⟩, hrun, hobs⟩ := Option.map_eq_some_iff.mp hrest
  obtain ⟨hposted, hobs⟩ := Prod.mk.inj hobs
  obtain ⟨hhandled, hheld⟩ := Prod.mk.inj hobs
  exact ⟨s₀, s, log, hopen, hrun, hposted, hhandled, hheld, run_owns hopen _ s log hrun⟩

end XdpSystem

end LimitOrderBook
