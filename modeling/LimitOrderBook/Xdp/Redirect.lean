import Mathlib.Data.List.Basic

/-!
# The XDP program

`xdp_redirect_feed` of `xdp_redirect.c`. It looks at the headers of a frame and redirects UDP
datagrams for the feed's port to the socket that is registered for the queue; everything else goes
up the network stack. The bounds checks of the source are comparisons of the end of each header with
the end of the frame.
-/

namespace LimitOrderBook

/-- What becomes of a frame. -/
inductive XdpAction where
  | pass
  | redirect (socket : Nat)
  deriving DecidableEq, Repr

/-- `xsks_map`: the sockets by RX queue. -/
abbrev XsksMap := Nat → Option Nat

/-- `max_entries` of the map. -/
def kMaxEntries : Nat := 64

/-- `bpf_redirect_map` with `XDP_PASS` for a queue without a socket. -/
def bpfRedirectMap (xsksMap : XsksMap) (queue : Nat) : XdpAction :=
  if queue < kMaxEntries then
    match xsksMap queue with
    | some socket => .redirect socket
    | none => .pass
  else .pass

/-- The byte at an offset of a frame. -/
def byteAt (frame : List UInt8) (offset : Nat) : Nat := (frame.getD offset 0).toNat

/-- The big-endian 16-bit number at an offset of a frame. -/
def shortAt (frame : List UInt8) (offset : Nat) : Nat :=
  256 * byteAt frame offset + byteAt frame (offset + 1)

/-- `sizeof(struct ethhdr)`. -/
def kEthBytes : Nat := 14

/-- `sizeof(struct iphdr)`. -/
def kIpBytes : Nat := 20

/-- `sizeof(struct udphdr)`. -/
def kUdpBytes : Nat := 8

/-- `ETH_P_IP`. -/
def kEthPIp : Nat := 0x0800

/-- `IPPROTO_UDP`. -/
def kIpprotoUdp : Nat := 17

/-- `FEED_UDP_PORT`. -/
def kFeedUdpPort : Nat := 9999

/-- `h_proto` of the Ethernet header. -/
def ethProto (frame : List UInt8) : Nat := shortAt frame 12

/-- `ihl` of the IPv4 header. -/
def ipIhl (frame : List UInt8) : Nat := byteAt frame kEthBytes % 16

/-- `protocol` of the IPv4 header. -/
def ipProtocol (frame : List UInt8) : Nat := byteAt frame (kEthBytes + 9)

/-- `dest` of the UDP header. -/
def udpDest (frame : List UInt8) : Nat := shortAt frame (kEthBytes + kIpBytes + 2)

/-- `xdp_redirect_feed`. -/
def xdpRedirectFeed (xsksMap : XsksMap) (queue : Nat) (frame : List UInt8) : XdpAction :=
  if frame.length < kEthBytes then .pass
  else if ethProto frame ≠ kEthPIp then .pass
  else if frame.length < kEthBytes + kIpBytes then .pass
  else if ipProtocol frame ≠ kIpprotoUdp then .pass
  else if ipIhl frame ≠ 5 then .pass
  else if frame.length < kEthBytes + kIpBytes + kUdpBytes then .pass
  else if udpDest frame ≠ kFeedUdpPort then .pass
  else bpfRedirectMap xsksMap queue

/-- An Ethernet/IPv4/UDP frame without IP options for the feed's port. -/
structure FeedFrame (frame : List UInt8) : Prop where
  length : kEthBytes + kIpBytes + kUdpBytes ≤ frame.length
  proto : ethProto frame = kEthPIp
  ihl : ipIhl frame = 5
  protocol : ipProtocol frame = kIpprotoUdp
  dest : udpDest frame = kFeedUdpPort

instance (frame : List UInt8) : Decidable (FeedFrame frame) :=
  decidable_of_iff
    (kEthBytes + kIpBytes + kUdpBytes ≤ frame.length ∧ ethProto frame = kEthPIp ∧
      ipIhl frame = 5 ∧ ipProtocol frame = kIpprotoUdp ∧ udpDest frame = kFeedUdpPort)
    ⟨fun h => ⟨h.1, h.2.1, h.2.2.1, h.2.2.2.1, h.2.2.2.2⟩,
      fun h => ⟨h.length, h.proto, h.ihl, h.protocol, h.dest⟩⟩

/-- The program redirects the frames of the feed and passes the others. -/
theorem xdpRedirectFeed_eq (xsksMap : XsksMap) (queue : Nat) (frame : List UInt8) :
    xdpRedirectFeed xsksMap queue frame =
      if FeedFrame frame then bpfRedirectMap xsksMap queue else .pass := by
  unfold xdpRedirectFeed
  by_cases hfeed : FeedFrame frame
  · have hlen := hfeed.length
    rw [if_pos hfeed, if_neg (by omega), if_neg (by rw [hfeed.proto]; decide), if_neg (by omega),
      if_neg (by rw [hfeed.protocol]; decide), if_neg (by rw [hfeed.ihl]; decide),
      if_neg (by omega), if_neg (by rw [hfeed.dest]; decide)]
  · rw [if_neg hfeed]
    split_ifs with h1 h2 h3 h4 h5 h6 h7
    all_goals first | rfl | skip
    exact absurd ⟨by omega, not_not.mp h2, not_not.mp h5, not_not.mp h4, not_not.mp h7⟩ hfeed

/-! ## Reads -/

/-- The offsets of the bytes that `xdpRedirectFeed` reads, in the order of the reads. -/
def xdpRedirectFeedReads (frame : List UInt8) : List Nat :=
  if frame.length < kEthBytes then []
  else 12 :: 13 ::
    if ethProto frame ≠ kEthPIp then []
    else if frame.length < kEthBytes + kIpBytes then []
    else (kEthBytes + 9) ::
      if ipProtocol frame ≠ kIpprotoUdp then []
      else kEthBytes ::
        if ipIhl frame ≠ 5 then []
        else if frame.length < kEthBytes + kIpBytes + kUdpBytes then []
        else [kEthBytes + kIpBytes + 2, kEthBytes + kIpBytes + 3]

/-- The program reads inside the frame. -/
theorem lt_length_of_mem_reads {frame : List UInt8} {offset : Nat}
    (h : offset ∈ xdpRedirectFeedReads frame) : offset < frame.length := by
  unfold xdpRedirectFeedReads kEthBytes kIpBytes kUdpBytes at h
  split_ifs at h <;> simp only [List.mem_cons, List.not_mem_nil, or_false] at h <;> omega

/-- The program decides by the length of a frame and by the bytes that it reads. -/
theorem xdpRedirectFeed_congr (xsksMap : XsksMap) (queue : Nat) {frame frame' : List UInt8}
    (hlen : frame'.length = frame.length)
    (hreads : ∀ offset ∈ xdpRedirectFeedReads frame, byteAt frame' offset = byteAt frame offset) :
    xdpRedirectFeed xsksMap queue frame' = xdpRedirectFeed xsksMap queue frame := by
  unfold xdpRedirectFeedReads at hreads
  unfold xdpRedirectFeed
  rw [hlen]
  -- each check reads bytes on which the frames agree, and only if the checks before it have passed
  refine ite_congr rfl (fun _ => rfl) fun h1 => ?_
  rw [if_neg h1, List.forall_mem_cons, List.forall_mem_cons] at hreads
  obtain ⟨h12, h13, hreads⟩ := hreads
  rw [show ethProto frame' = ethProto frame by unfold ethProto shortAt; rw [h12, h13]]
  refine ite_congr rfl (fun _ => rfl) fun h2 => ite_congr rfl (fun _ => rfl) fun h3 => ?_
  rw [if_neg h2, if_neg h3, List.forall_mem_cons] at hreads
  obtain ⟨h23, hreads⟩ := hreads
  rw [show ipProtocol frame' = ipProtocol frame from h23]
  refine ite_congr rfl (fun _ => rfl) fun h4 => ?_
  rw [if_neg h4, List.forall_mem_cons] at hreads
  obtain ⟨h14, hreads⟩ := hreads
  rw [show ipIhl frame' = ipIhl frame by unfold ipIhl; rw [h14]]
  refine ite_congr rfl (fun _ => rfl) fun h5 => ite_congr rfl (fun _ => rfl) fun h6 => ?_
  rw [if_neg h5, if_neg h6, List.forall_mem_cons, List.forall_mem_singleton] at hreads
  rw [show udpDest frame' = udpDest frame by unfold udpDest shortAt; rw [hreads.1, hreads.2]]

end LimitOrderBook
