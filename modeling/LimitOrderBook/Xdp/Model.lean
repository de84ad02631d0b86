import Mathlib.Algebra.Group.Nat.Defs
import Mathlib.Data.List.Range
import Mathlib.Logic.Function.Basic

/-!
# The AF_XDP socket

`XdpSocket` of `xdp_socket.hpp` and `xdp_socket.cpp`: a memory of `frame_count` chunks, the UMEM,
and two rings shared with the kernel. The FILL ring hands chunks to the kernel and the RX ring hands
received frames back. `step` is the system of the two parties: each access of `poll` to a counter
or a ring entry and each call of the frame handler is a step, and so is each thing the kernel does.

Of the kernel this is assumed: it takes entries off the FILL ring in order and rounds the address
down to its chunk, and it writes a frame into a chunk that it holds and posts one descriptor for it
on the RX ring, in order and only while there is room. It refuses rings of no entries. The size of a
chunk is a 32-bit number.
-/

namespace LimitOrderBook

/-- `xdp_desc`, less its options. -/
structure XdpDesc where
  addr : UInt64
  len : UInt32
  deriving DecidableEq, Repr

/-- A ring shared with the kernel, with its free-running counters. -/
structure XdpRing (D : Type) where
  producer : UInt32 := 0
  consumer : UInt32 := 0
  descs : Nat → D

/-- `mask` of the two rings. -/
def ringMask (frameCount : Nat) : UInt32 := UInt32.ofNat (frameCount - 1)

/-- The entry that a counter leads to. -/
def slotOf (frameCount : Nat) (counter : UInt32) : Nat :=
  (counter &&& ringMask frameCount).toNat

/-- `kMaxBatch`. -/
def kMaxBatch : UInt32 := 64

/-- Where `poll` is. -/
inductive PollThread where
  | idle
  /-- The RX consumer is loaded. -/
  | loadedConsumer (cons : UInt32)
  /-- A batch is being handled; `recycle` has the addresses of the frames handled so far. -/
  | handling (cons available : UInt32) (recycle : List UInt64)
  /-- The RX consumer is stored. -/
  | released (available : UInt32) (recycle : List UInt64)
  /-- The FILL producer is loaded, and `i` addresses are written. -/
  | filling (available fprod : UInt32) (recycle : List UInt64) (i : Nat)
  deriving DecidableEq, Repr

/-- A step of `poll` or of the kernel. -/
inductive XdpStep where
  /-- `poll` is called and loads the RX consumer. -/
  | loadConsumer
  | loadProducer
  | handleFrame
  | storeConsumer
  | loadFillProducer
  | writeFill
  | storeFillProducer
  /-- The kernel takes an entry off the FILL ring. -/
  | take
  /-- The kernel writes a frame into a chunk and posts it. -/
  | post (chunk offset : Nat) (frame : List UInt8)

/-- A frame that the kernel has posted, or that the frame handler was called with. -/
inductive XdpEvent where
  | posted (d : XdpDesc) (frame : List UInt8)
  | handled (d : XdpDesc) (frame : List UInt8)

/-- The UMEM, the rings, the chunks that the kernel holds, and `poll`. -/
structure XdpSystem (frameCount frameSize : Nat) where
  fill : XdpRing UInt64
  rx : XdpRing XdpDesc
  umem : Nat → UInt8
  held : List Nat := []
  poll : PollThread := .idle

/-- The bytes at an address. -/
def readBytes (umem : Nat → UInt8) (addr len : Nat) : List UInt8 :=
  (List.range len).map fun i => umem (addr + i)

/-- Write bytes at an address. -/
def writeBytes (umem : Nat → UInt8) (addr : Nat) (bytes : List UInt8) : Nat → UInt8 :=
  fun a => if addr ≤ a ∧ a < addr + bytes.length then bytes.getD (a - addr) 0 else umem a

/-- `is_power_of_two`. -/
def isPowerOfTwo (n : Nat) : Bool := n ≠ 0 && (n &&& (n - 1)) = 0

namespace XdpSystem

variable {frameCount frameSize : Nat}

/-! ## Setup -/

/-- The loop that primes the FILL ring with every frame. -/
def primeFill (frameCount frameSize : Nat) (descs : Nat → UInt64) : Nat → UInt64 :=
  (List.range frameCount).foldl (fun descs i =>
    Function.update descs (i &&& (ringMask frameCount).toNat) (UInt64.ofNat (i * frameSize))) descs

/-- `open`, as far as the rings: the socket with its FILL ring primed, over any contents of the
mapped memory. -/
def openSocket (fillDescs : Nat → UInt64) (rxDescs : Nat → XdpDesc) (umem : Nat → UInt8) :
    Option (XdpSystem frameCount frameSize) :=
  if !isPowerOfTwo frameCount then none
  else if frameSize = 0 ∨ 2 ^ 32 ≤ frameSize then none
  else if UInt32.ofNat frameCount = 0 then none
  else some
    { fill :=
        { producer := UInt32.ofNat frameCount
          descs := primeFill frameCount frameSize fillDescs }
      rx := { descs := rxDescs }
      umem := umem }

/-! ## Steps -/

/-- The size of the batch that `poll` handles. -/
def batchSize (available : UInt32) : UInt32 :=
  if available > kMaxBatch then kMaxBatch else available

/-- One step, and the frame that is posted or handled in it. There is no such step if the party is
not where it takes it. -/
def step (s : XdpSystem frameCount frameSize) :
    XdpStep → Option (XdpSystem frameCount frameSize × List XdpEvent)
  | .loadConsumer =>
      match s.poll with
      | .idle => some ({ s with poll := .loadedConsumer s.rx.consumer }, [])
      | _ => none
  | .loadProducer =>
      match s.poll with
      | .loadedConsumer cons =>
          let available := s.rx.producer - cons
          if available = 0 then some ({ s with poll := .idle }, [])
          else some ({ s with poll := .handling cons (batchSize available) [] }, [])
      | _ => none
  | .handleFrame =>
      match s.poll with
      | .handling cons available recycle =>
          if recycle.length < available.toNat then
            let d := s.rx.descs (slotOf frameCount (cons + UInt32.ofNat recycle.length))
            some ({ s with poll := .handling cons available (recycle ++ [d.addr]) },
              [.handled d (readBytes s.umem d.addr.toNat d.len.toNat)])
          else none
      | _ => none
  | .storeConsumer =>
      match s.poll with
      | .handling cons available recycle =>
          if recycle.length = available.toNat then
            some ({ s with
              rx := { s.rx with consumer := cons + available }
              poll := .released available recycle }, [])
          else none
      | _ => none
  | .loadFillProducer =>
      match s.poll with
      | .released available recycle =>
          some ({ s with poll := .filling available s.fill.producer recycle 0 }, [])
      | _ => none
  | .writeFill =>
      match s.poll with
      | .filling available fprod recycle i =>
          if i < available.toNat then
            let slot := slotOf frameCount (fprod + UInt32.ofNat i)
            let descs := Function.update s.fill.descs slot (recycle.getD i 0)
            some ({ s with
              fill := { s.fill with descs := descs }
              poll := .filling available fprod recycle (i + 1) }, [])
          else none
      | _ => none
  | .storeFillProducer =>
      match s.poll with
      | .filling available fprod _ i =>
          if i = available.toNat then
            some ({ s with
              fill := { s.fill with producer := fprod + available }
              poll := .idle }, [])
          else none
      | _ => none
  | .take =>
      if s.fill.consumer = s.fill.producer then none
      else
        let addr := s.fill.descs (slotOf frameCount s.fill.consumer)
        some ({ s with
          fill := { s.fill with consumer := s.fill.consumer + 1 }
          held := addr.toNat / frameSize :: s.held }, [])
  | .post chunk offset frame =>
      if chunk ∈ s.held ∧ offset < frameSize ∧ offset + frame.length ≤ frameSize ∧
          s.rx.producer - s.rx.consumer < UInt32.ofNat frameCount then
        let d : XdpDesc :=
          ⟨UInt64.ofNat (chunk * frameSize + offset), UInt32.ofNat frame.length⟩
        some ({ s with
          rx := { s.rx with
            producer := s.rx.producer + 1
            descs := Function.update s.rx.descs (slotOf frameCount s.rx.producer) d }
          umem := writeBytes s.umem (chunk * frameSize + offset) frame
          held := s.held.erase chunk }, [.posted d frame])
      else none

/-- An interleaving of steps, and the frames that are posted and handled in it. -/
def run (s : XdpSystem frameCount frameSize) :
    List XdpStep → Option (XdpSystem frameCount frameSize × List XdpEvent)
  | [] => some (s, [])
  | a :: as => do
      let (s₁, events) ← s.step a
      let (s₂, events') ← s₁.run as
      some (s₂, events ++ events')

end XdpSystem

end LimitOrderBook
