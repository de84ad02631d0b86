import LimitOrderBook.Xdp.Model

/-!
# Opening and closing the socket

`open`, `close` and `get_stats` of `xdp_socket.cpp`, with every system call and every call of libbpf
in the order of the source. A call may fail; which ones do is given by the list of answers, one for
each call. Pointers and descriptors are optional numbers: no value stands for a null pointer, a
negative descriptor or `MAP_FAILED`.

`open` leaves early at the first call that fails and keeps what it has so far in the fields of the
object, for `close` to release. `close` does not look at the answers of its calls. `ledger` follows
a list of calls and says what is live afterwards; it is undefined if a call uses or releases
something that is not live, and a call that fails to release something leaves it live.
-/

namespace LimitOrderBook

/-- The options of the socket that `open` sets or reads. -/
inductive XdpOption where
  | umemReg
  | umemFillRing
  | rxRing
  | umemCompletionRing
  | txRing
  | mmapOffsets
  | statistics
  deriving DecidableEq, Repr

/-- What `mmap` maps. -/
inductive MmapKind where
  | anonymous
  | fillRing (fd : Nat)
  | rxRing (fd : Nat)
  deriving DecidableEq, Repr

/-- `sxdp_flags` of `bind`. -/
inductive BindMode where
  | zeroCopy
  | copy
  deriving DecidableEq, Repr

/-- `XDP_FLAGS_SKB_MODE`. -/
def kXdpFlagsSkbMode : Nat := 2

/-- A call to the kernel or to libbpf. -/
inductive KernelCall where
  | ifNametoindex (ifname : String)
  | bpfObjectOpenFile (path : String)
  | bpfObjectLoad (obj : Nat)
  | bpfObjectFindProgramByName (obj : Nat) (name : String)
  | bpfProgramFd (prog : Nat)
  | bpfXdpAttach (ifindex progFd flags : Nat)
  | mmap (kind : MmapKind) (len : Nat)
  | socket
  | setsockopt (fd : Nat) (option : XdpOption)
  | getsockopt (fd : Nat) (option : XdpOption)
  | stat (ifname : String) (queueId : Nat)
  | bind (fd ifindex queueId : Nat) (mode : BindMode)
  | bpfObjectFindMapByName (obj : Nat) (name : String)
  | bpfMapFd (map : Nat)
  | bpfMapUpdateElem (mapFd queueId fd : Nat)
  | munmap (base len : Nat)
  | close (fd : Nat)
  | bpfXdpDetach (ifindex flags : Nat)
  | bpfObjectClose (obj : Nat)
  deriving DecidableEq, Repr

/-- Something that a call returns and another one has to give back. -/
inductive KernelResource where
  | mapping (base len : Nat)
  | descriptor (fd : Nat)
  | attachment (ifindex : Nat)
  | object (obj : Nat)
  deriving DecidableEq, Repr

/-- What has to be live at a call. -/
def KernelCall.uses : KernelCall → Option KernelResource
  | .bpfObjectLoad obj => some (.object obj)
  | .bpfObjectFindProgramByName obj _ => some (.object obj)
  | .mmap (.fillRing fd) _ => some (.descriptor fd)
  | .mmap (.rxRing fd) _ => some (.descriptor fd)
  | .setsockopt fd _ => some (.descriptor fd)
  | .getsockopt fd _ => some (.descriptor fd)
  | .bind fd _ _ _ => some (.descriptor fd)
  | .bpfObjectFindMapByName obj _ => some (.object obj)
  | .bpfMapUpdateElem _ _ fd => some (.descriptor fd)
  | .munmap base len => some (.mapping base len)
  | .close fd => some (.descriptor fd)
  | .bpfXdpDetach ifindex _ => some (.attachment ifindex)
  | .bpfObjectClose obj => some (.object obj)
  | _ => none

/-- The call with this answer has not given back what it was to give back. A detach has no value
also if it finds nothing to detach in the mode of its flags. `bpf_object__close` cannot fail. -/
def KernelCall.keeps (answer : Option Nat) : KernelCall → Bool
  | .munmap _ _ => answer.isNone
  | .close _ => answer.isNone
  | .bpfXdpDetach _ _ => answer.isNone
  | _ => false

/-- What calls were to give back and have not. -/
def kept (calls : List (KernelCall × Option Nat)) : List KernelResource :=
  calls.flatMap fun call => if call.1.keeps call.2 then call.1.uses.toList else []

/-! ## The object -/

/-- `XdpSocket::Ring`. -/
structure MappedRing where
  mapBase : Option Nat := none
  mapLen : Nat := 0
  producer : Option Nat := none
  consumer : Option Nat := none
  descs : Option Nat := none
  mask : UInt32 := 0

/-- The fields of an `XdpSocket`. -/
structure XdpSocket where
  ifname : String
  queueId : Nat
  bpfObjPath : String
  frameCount : Nat
  frameSize : Nat
  ifindex : Nat := 0
  fd : Option Nat := none
  umemArea : Option Nat := none
  umemSize : Nat := 0
  rx : MappedRing := {}
  fill : MappedRing := {}
  bpfObj : Option Nat := none
  attached : Bool := false

/-- The offsets of the parts of a ring in its mapping, as `XDP_MMAP_OFFSETS` reports them. -/
structure RingOffsets where
  producer : Nat
  consumer : Nat
  desc : Nat

/-- The object and the calls that it has made. `answers` has the answer to each call, and
`fillRing` is the memory that the kernel shares through the mapping of the FILL ring. -/
structure XdpWorld where
  socket : XdpSocket
  answers : Nat → Option Nat
  fillRing : XdpRing UInt64
  calls : List (KernelCall × Option Nat) := []

/-- Where `open` gives up. -/
inductive OpenError where
  | frameCount
  | interface
  | openObject
  | loadObject
  | program
  | programFd
  | attach
  | umemMmap
  | socket
  | umemReg
  | fillRing
  | rxRing
  | completionRing
  | txRing
  | mmapOffsets
  | fillMmap
  | rxMmap
  | queue
  | bind
  | map
  | mapFd
  | mapUpdate
  deriving DecidableEq, Repr

/-- A part of `open` or `close`. -/
abbrev XdpM (α : Type) : Type := ExceptT OpenError (StateM XdpWorld) α

/-- The pointers into a mapped ring. -/
def MappedRing.locate (ring : MappedRing) (base : Nat) (off : RingOffsets) (frameCount : Nat) :
    MappedRing :=
  { ring with
    producer := some (base + off.producer)
    consumer := some (base + off.consumer)
    descs := some (base + off.desc)
    mask := UInt32.ofNat (frameCount - 1) }

namespace XdpSocket

/-- Call the kernel. -/
def sys (call : KernelCall) : XdpM (Option Nat) := do
  let w ← get
  let answer := w.answers w.calls.length
  set { w with calls := w.calls ++ [(call, answer)] }
  pure answer

/-- Assign fields of the object. -/
def assign (f : XdpSocket → XdpSocket) : XdpM Unit :=
  modify fun w => { w with socket := f w.socket }

/-- Leave early if there is no value. -/
def require (value : Option Nat) (error : OpenError) : XdpM Nat :=
  match value with
  | some v => pure v
  | none => throw error

/-- A call that has to succeed. -/
def check (call : KernelCall) (error : OpenError) : XdpM Nat := do
  let answer ← sys call
  require answer error

/-- A call whose answer is assigned to a field and that has to succeed. -/
def acquire (call : KernelCall) (store : Option Nat → XdpSocket → XdpSocket) (error : OpenError) :
    XdpM Nat := do
  let answer ← sys call
  assign (store answer)
  require answer error

/-- `load_and_attach_bpf`. -/
def loadAndAttachBpf : XdpM Unit := do
  let x := (← get).socket
  let ifindex ← acquire (.ifNametoindex x.ifname)
    (fun answer x => { x with ifindex := answer.getD 0 }) .interface
  let obj ← acquire (.bpfObjectOpenFile x.bpfObjPath)
    (fun answer x => { x with bpfObj := answer }) .openObject
  let _ ← check (.bpfObjectLoad obj) .loadObject
  let prog ← check (.bpfObjectFindProgramByName obj "xdp_redirect_feed") .program
  let progFd ← check (.bpfProgramFd prog) .programFd
  let _ ← acquire (.bpfXdpAttach ifindex progFd kXdpFlagsSkbMode)
    (fun answer x => { x with attached := x.attached || answer.isSome }) .attach

/-- The length of the mapping of a ring with entries of this size. -/
def ringLen (desc frameCount entrySize : Nat) : Nat := (desc + frameCount * entrySize) % 2 ^ 64

/-- `bind` in zero-copy mode and then in copy mode. -/
def bindSocket (fd ifindex queueId : Nat) : XdpM Unit := do
  let zeroCopy ← sys (.bind fd ifindex queueId .zeroCopy)
  if zeroCopy.isNone then
    let _ ← check (.bind fd ifindex queueId .copy) .bind

/-- `setup_umem_and_rings`, with the offsets that the kernel reports for the two rings. -/
def setupUmemAndRings (fr rx : RingOffsets) : XdpM Unit := do
  let x := (← get).socket
  let umemSize := (x.frameCount * x.frameSize) % 2 ^ 64
  let _ ← acquire (.mmap .anonymous umemSize)
    (fun answer x => { x with umemSize := umemSize, umemArea := answer }) .umemMmap
  let fd ← acquire .socket (fun answer x => { x with fd := answer }) .socket
  let _ ← check (.setsockopt fd .umemReg) .umemReg
  let _ ← check (.setsockopt fd .umemFillRing) .fillRing
  let _ ← check (.setsockopt fd .rxRing) .rxRing
  let _ ← check (.setsockopt fd .umemCompletionRing) .completionRing
  let _ ← check (.setsockopt fd .txRing) .txRing
  let _ ← check (.getsockopt fd .mmapOffsets) .mmapOffsets
  let fillLen := ringLen fr.desc x.frameCount 8
  let fillBase ← acquire (.mmap (.fillRing fd) fillLen)
    (fun answer x => { x with fill := { x.fill with mapLen := fillLen, mapBase := answer } })
    .fillMmap
  assign fun x => { x with fill := x.fill.locate fillBase fr x.frameCount }
  let rxLen := ringLen rx.desc x.frameCount 16
  let rxBase ← acquire (.mmap (.rxRing fd) rxLen)
    (fun answer x => { x with rx := { x.rx with mapLen := rxLen, mapBase := answer } }) .rxMmap
  assign fun x => { x with rx := x.rx.locate rxBase rx x.frameCount }
  let _ ← check (.stat x.ifname x.queueId) .queue
  bindSocket fd x.ifindex x.queueId
  let map ← check (.bpfObjectFindMapByName (x.bpfObj.getD 0) "xsks_map") .map
  let mapFd ← check (.bpfMapFd map) .mapFd
  let _ ← check (.bpfMapUpdateElem mapFd x.queueId fd) .mapUpdate
  modify fun w => { w with
    fillRing := { w.fillRing with
      producer := UInt32.ofNat x.frameCount
      descs := XdpSystem.primeFill x.frameCount x.frameSize w.fillRing.descs } }

/-- The body of `open`. -/
def openSteps (fr rx : RingOffsets) : XdpM Unit := do
  let w ← get
  if !isPowerOfTwo w.socket.frameCount then throw OpenError.frameCount
  else
    loadAndAttachBpf
    setupUmemAndRings fr rx

/-- Give back what a field holds, if anything, and clear the field. -/
def giveBack (call : XdpSocket → Option KernelCall) (clear : XdpSocket → XdpSocket) :
    XdpM Unit := do
  match call (← get).socket with
  | some c =>
      let _ ← sys c
      assign clear
  | none => pure ()

/-- `unmap_ring`, for the ring in a field. -/
def unmapRing (ring : XdpSocket → MappedRing) (clear : XdpSocket → XdpSocket) : XdpM Unit :=
  giveBack (fun x => (ring x).mapBase.map fun base => .munmap base (ring x).mapLen) clear

/-- The body of `close`. -/
def closeSteps : XdpM Unit := do
  unmapRing (·.rx) fun x => { x with rx := {} }
  unmapRing (·.fill) fun x => { x with fill := {} }
  giveBack (fun x => x.fd.map .close) fun x => { x with fd := none }
  giveBack (fun x => x.umemArea.map fun base => .munmap base x.umemSize)
    fun x => { x with umemArea := none }
  giveBack (fun x => if x.attached then some (.bpfXdpDetach x.ifindex 0) else none)
    fun x => { x with attached := false }
  giveBack (fun x => x.bpfObj.map .bpfObjectClose) fun x => { x with bpfObj := none }

/-- `open`. Returns whether it succeeded. -/
def openSocket (fr rx : RingOffsets) (w : XdpWorld) : Bool × XdpWorld :=
  let (outcome, w) := (openSteps fr rx).run.run w
  (outcome.isOk, w)

/-- `close`, and the destructor. -/
def closeSocket (w : XdpWorld) : XdpWorld := (closeSteps.run.run w).2

/-- `get_stats`. Returns whether the statistics were read. -/
def getStats (w : XdpWorld) : Bool × XdpWorld :=
  match w.socket.fd with
  | some fd =>
      let (outcome, w) := (sys (.getsockopt fd .statistics)).run.run w
      (outcome.toOption.join.isSome, w)
  | none => (false, w)

/-! ## What the object owns -/

/-- What the fields of the object hold. -/
def owned (x : XdpSocket) : List KernelResource :=
  (x.rx.mapBase.map fun base => .mapping base x.rx.mapLen).toList ++
  (x.fill.mapBase.map fun base => .mapping base x.fill.mapLen).toList ++
  (x.fd.map .descriptor).toList ++
  (x.umemArea.map fun base => .mapping base x.umemSize).toList ++
  (if x.attached then [.attachment x.ifindex] else []) ++
  (x.bpfObj.map .object).toList

/-! ## Uses of the object -/

/-- A call of a member function. -/
inductive SocketCall where
  | openSocket
  | closeSocket
  | getStats
  deriving DecidableEq, Repr

/-- A call of a member function. `open` is for an object that holds nothing. -/
def step (fr rx : RingOffsets) (w : XdpWorld) : SocketCall → Option XdpWorld
  | .openSocket => if owned w.socket = [] then some (openSocket fr rx w).2 else none
  | .closeSocket => some (closeSocket w)
  | .getStats => some (getStats w).2

/-- Calls one after the other. -/
def run (fr rx : RingOffsets) (w : XdpWorld) (calls : List SocketCall) : Option XdpWorld :=
  calls.foldlM (step fr rx) w

end XdpSocket

end LimitOrderBook
