import LimitOrderBook.Listen.Ingest

/-!
# Datagrams that reach the book

Which frames the XDP program and the frame handler together let through to the book. The comment at
`kHeaderBytes` relies on the program for the 42 bytes of headers before a message. The program looks
at the type of the packet, the length of its header and the destination port, but neither at the
version, nor at the fragment fields, nor at the lengths of the packet and of the datagram, so it
also redirects fragments, in which a UDP header need not be where it looks for the port, and packets
and datagrams that end before the message does, with the rest of the frame behind them.
`only_genuine_iff` says exactly for which frames this makes no difference.
-/

namespace LimitOrderBook

/-! ## Header fields that are not read -/

/-- `version` of the IPv4 header. -/
def ipVersion (frame : List UInt8) : Nat := byteAt frame kEthBytes / 16

/-- `tot_len` of the IPv4 header: the length of the packet with this header. -/
def ipTotalLength (frame : List UInt8) : Nat := shortAt frame (kEthBytes + 2)

/-- The fragment offset in `frag_off` of the IPv4 header. -/
def ipFragmentOffset (frame : List UInt8) : Nat := shortAt frame (kEthBytes + 6) % 2 ^ 13

/-- The more-fragments flag in `frag_off` of the IPv4 header. -/
def ipMoreFragments (frame : List UInt8) : Bool := (shortAt frame (kEthBytes + 6)).testBit 13

/-- `len` of the UDP header: the length of this header and the payload. -/
def udpLength (frame : List UInt8) : Nat := shortAt frame (kEthBytes + kIpBytes + 4)

/-- The payload of a UDP datagram, where the headers say that it is. -/
def udpPayload (frame : List UInt8) : List UInt8 :=
  (frame.drop (kEthBytes + 4 * ipIhl frame + kUdpBytes)).take (udpLength frame - kUdpBytes)

/-- The fields that the program does not look at are those of a whole datagram with room for a
message: the packet lies inside the frame and the datagram inside the packet. -/
structure WholeDatagram (frame : List UInt8) : Prop where
  version : ipVersion frame = 4
  offset : ipFragmentOffset frame = 0
  last : ipMoreFragments frame = false
  packet : kEthBytes + ipTotalLength frame ≤ frame.length
  datagram : kIpBytes + udpLength frame ≤ ipTotalLength frame
  room : kUdpBytes + kRecordBytes ≤ udpLength frame

instance (frame : List UInt8) : Decidable (WholeDatagram frame) :=
  decidable_of_iff
    (ipVersion frame = 4 ∧ ipFragmentOffset frame = 0 ∧ ipMoreFragments frame = false ∧
      kEthBytes + ipTotalLength frame ≤ frame.length ∧
      kIpBytes + udpLength frame ≤ ipTotalLength frame ∧
      kUdpBytes + kRecordBytes ≤ udpLength frame)
    ⟨fun ⟨h₁, h₂, h₃, h₄, h₅, h₆⟩ => ⟨h₁, h₂, h₃, h₄, h₅, h₆⟩,
      fun ⟨h₁, h₂, h₃, h₄, h₅, h₆⟩ => ⟨h₁, h₂, h₃, h₄, h₅, h₆⟩⟩

/-- A message is the start of the payload of a whole UDP datagram of the feed, which is as long as
its header says. -/
structure FeedDatagram (frame : List UInt8) (msg : FeedMessage) : Prop where
  feed : FeedFrame frame
  whole : WholeDatagram frame
  length : kUdpBytes + (udpPayload frame).length = udpLength frame
  covers : kRecordBytes ≤ (udpPayload frame).length
  message : (FeedRecord.ofBytes ((udpPayload frame).take kRecordBytes)).msg = msg

/-! ## From the queue to the book -/

section Datagrams

variable {xsksMap : XsksMap} {queue : Nat} {frame : List UInt8} {msg : FeedMessage}

/-- The message that is applied to the book for a frame on a queue. -/
def appliedMessage (xsksMap : XsksMap) (queue : Nat) (frame : List UInt8) : Option FeedMessage :=
  match xdpRedirectFeed xsksMap queue frame with
  | .redirect _ => messageOf frame
  | .pass => none

/-- If a message is applied, the program has read inside the frame only, and the message is that of
a datagram of the feed. -/
def OnlyGenuine (xsksMap : XsksMap) (queue : Nat) (frame : List UInt8) : Prop :=
  ∀ msg, appliedMessage xsksMap queue frame = some msg →
    (∀ offset ∈ xdpRedirectFeedReads frame, offset < frame.length) ∧ FeedDatagram frame msg

/-- A message is applied for the frames of the feed that are long enough, if a socket is registered
for the queue. -/
theorem appliedMessage_eq_some :
    appliedMessage xsksMap queue frame = some msg ↔
      (queue < kMaxEntries ∧ (xsksMap queue).isSome) ∧ FeedFrame frame ∧
        messageOf frame = some msg := by
  unfold appliedMessage
  rw [xdpRedirectFeed_eq, bpfRedirectMap]
  by_cases hfeed : FeedFrame frame
  · by_cases hqueue : queue < kMaxEntries
    · cases hsocket : xsksMap queue with
      | none => simp [hfeed, hqueue]
      | some socket => simp [hfeed, hqueue]
    · simp [hfeed, hqueue]
  · simp [hfeed]

/-- The handler takes the message of a whole datagram from the start of its payload. -/
theorem FeedFrame.payload (hfeed : FeedFrame frame) (hwhole : WholeDatagram frame) :
    kUdpBytes + (udpPayload frame).length = udpLength frame ∧
      (udpPayload frame).take kRecordBytes = (frame.drop kHeaderBytes).take kRecordBytes := by
  have hpacket := hwhole.packet
  have hdatagram := hwhole.datagram
  have hroom := hwhole.room
  -- without IP options the headers take 42 bytes
  have hheader : kEthBytes + 4 * ipIhl frame + kUdpBytes = kHeaderBytes := by
    rw [hfeed.ihl]
    rfl
  have hsum : kHeaderBytes = kEthBytes + kIpBytes + kUdpBytes := rfl
  unfold udpPayload
  rw [hheader, List.length_take, List.length_drop, List.take_take]
  exact ⟨by omega, by rw [Nat.min_eq_left (by omega)]⟩

/-- Only messages of genuine datagrams are applied if and only if every frame of the feed that is
long enough, on a queue with a socket, is a whole datagram with room for a message. -/
theorem only_genuine_iff (xsksMap : XsksMap) (queue : Nat) (frame : List UInt8) :
    OnlyGenuine xsksMap queue frame ↔
      (queue < kMaxEntries → (xsksMap queue).isSome → FeedFrame frame →
        kHeaderBytes + kRecordBytes ≤ frame.length → WholeDatagram frame) := by
  constructor
  · intro honly hqueue hsocket hfeed hlen
    have hmsg : messageOf frame = some _ := if_neg (not_lt.mpr hlen)
    exact (honly _ (appliedMessage_eq_some.mpr ⟨⟨hqueue, hsocket⟩, hfeed, hmsg⟩)).2.whole
  · intro hwhole msg hmsg
    obtain ⟨⟨hqueue, hsocket⟩, hfeed, hmsg⟩ := appliedMessage_eq_some.mp hmsg
    unfold messageOf at hmsg
    split at hmsg
    · cases hmsg
    · next hlen =>
        rw [not_lt] at hlen
        have hwhole := hwhole hqueue hsocket hfeed hlen
        obtain ⟨hlength, hpayload⟩ := hfeed.payload hwhole
        have hroom := hwhole.room
        refine ⟨fun offset => lt_length_of_mem_reads, hfeed, hwhole, hlength, by omega, ?_⟩
        rw [hpayload]
        exact Option.some_inj.mp hmsg

end Datagrams

/-- An IPv4 packet of 68 bytes from the middle of a larger one: its fragment offset is one. At the
place of a UDP header it has the feed's port and a length of 48. -/
def fragmentHeader : List UInt8 :=
  List.replicate 12 0 ++ [0x08, 0x00, 0x45, 0, 0, 68, 0, 1, 0x00, 0x01, 64, 17] ++
    List.replicate 10 0 ++ [0x9c, 0x40, 0x27, 0x0f, 0, 48, 0, 0]

/-- A fragment is taken for a datagram of the feed. -/
theorem not_only_genuine_fragment :
    ¬ OnlyGenuine (fun _ => some 3) 0 (fragmentHeader ++ feedRecord.bytes) := by
  intro honly
  have hfeed : FeedFrame (fragmentHeader ++ feedRecord.bytes) := by decide
  have hlen : kHeaderBytes + kRecordBytes ≤ (fragmentHeader ++ feedRecord.bytes).length := by
    decide
  have hmsg : messageOf (fragmentHeader ++ feedRecord.bytes) = some _ := if_neg (not_lt.mpr hlen)
  have hgenuine := honly _ (appliedMessage_eq_some.mpr ⟨⟨by decide, rfl⟩, hfeed, hmsg⟩)
  have hoffset : ipFragmentOffset (fragmentHeader ++ feedRecord.bytes) ≠ 0 := by decide
  exact hoffset hgenuine.2.whole.offset

end LimitOrderBook
