import LimitOrderBook.Feed.Correctness
import LimitOrderBook.Listen.Shutdown
import LimitOrderBook.Xdp.Correctness
import LimitOrderBook.Xdp.Redirect

/-!
# The AF_XDP path and the replay of a file

The two ways in which messages reach a book. `run_xdp_listen` takes them out of the frames that the
XDP program redirects and that `poll` hands to the frame handler; `run_replay` of `main.cpp` takes
them out of a feed file. `listen_eq_replay` says that the same messages give the same book: the
handler sees the redirected frames once and in order (`run_owns`), and takes the message out of each
at a fixed offset.
-/

namespace LimitOrderBook

/-! ## The frame handler -/

/-- `kHeaderBytes`. -/
def kHeaderBytes : Nat := 14 + 20 + 8

section Handler

variable {poolCapacity windowSize : Nat}

/-- The message that the frame handler takes out of a frame. A frame that is too short for one is
ignored. -/
def messageOf (frame : List UInt8) : Option FeedMessage :=
  if frame.length < kHeaderBytes + kRecordBytes then none
  else some (FeedRecord.ofBytes ((frame.drop kHeaderBytes).take kRecordBytes)).msg

/-- The frame handler, up to `publish`. -/
def onFrame (state : OrderBook poolCapacity windowSize × BookSignals) (frame : List UInt8) :
    Result (OrderBook poolCapacity windowSize × BookSignals) :=
  match messageOf frame with
  | none => pure state
  | some msg => Listener.handleMessage state.1 state.2 msg

/-- What both programs print at the end, with the fills they have counted. -/
structure Report where
  fills : List Fill
  stats : BookStats
  bestBid : Option Price
  bestAsk : Option Price
  topLevels : Side → Nat → List LevelQty
  totalRestingQty : Quantity
  signals : BookSignals

/-- The report on a book. -/
def report (b : OrderBook poolCapacity windowSize) : Result Report := do
  let signals ← computeSignals b.topLevels {}
  pure ⟨b.engine.fills, b.stats, b.bestBid, b.bestAsk, b.topLevels, b.totalRestingQty, signals⟩

/-- `run_xdp_listen`, for the frames that its handler is called with. -/
def runXdpListen (poolCapacity windowSize : Nat) (frames : List (List UInt8)) : Result Report := do
  let (b, _) ← frames.foldlM onFrame (({} : OrderBook poolCapacity windowSize), ({} : BookSignals))
  report b

/-- `run_replay`. Reports nothing if the file is refused. -/
def runReplay (poolCapacity windowSize : Nat) (file : Option (List UInt8)) :
    Except Exception (Option (Result Report)) := do
  let (ok, msgs) ← loadFeedFile file .empty
  if ok then
    pure (some (do
      let b ← ({} : OrderBook poolCapacity windowSize).applyMessages
        (msgs.records.map FeedRecord.msg)
      report b))
  else pure none

/-- The frame handler applies the messages of the frames, one after the other. -/
theorem foldlM_onFrame (frames : List (List UInt8)) (b : OrderBook poolCapacity windowSize)
    (sig : BookSignals) (hlen : sig.imbalance.length = kNumImbalanceDepths) :
    (frames.foldlM onFrame (b, sig)).map Prod.fst =
      b.applyMessages (frames.filterMap messageOf) := by
  induction frames generalizing b sig with
  | nil => rfl
  | cons frame frames ih =>
      rw [List.foldlM_cons, List.filterMap_cons, onFrame]
      cases hmsg : messageOf frame with
      | none => exact ih b sig hlen
      | some msg =>
          simp only [OrderBook.applyMessages, Listener.handleMessage]
          cases hb : b.applyMessage msg with
          | error fault => rfl
          | ok b' =>
              rw [ok_bind, computeSignals_eq _ hlen]
              exact ih b' _ (by rw [List.length_map]; rfl)

/-- The report of `run_xdp_listen` is that on the book after the messages of the frames. -/
theorem runXdpListen_eq (poolCapacity windowSize : Nat) (frames : List (List UInt8)) :
    runXdpListen poolCapacity windowSize frames =
      ({} : OrderBook poolCapacity windowSize).applyMessages (frames.filterMap messageOf) >>=
        report := by
  rw [← foldlM_onFrame frames ({} : OrderBook poolCapacity windowSize) {} rfl, runXdpListen]
  cases frames.foldlM onFrame (({} : OrderBook poolCapacity windowSize), ({} : BookSignals)) <;> rfl

end Handler

/-! ## Arrivals -/

/-- A frame that arrives on the queue, and the message that it is sent for, if any. -/
structure Arrival where
  frame : List UInt8
  carries : Option FeedRecord

/-- A message is the payload of a frame of the feed. Any other frame is passed up or is too short
for a message. -/
def Arrival.Ok (xsksMap : XsksMap) (queue : Nat) (a : Arrival) : Prop :=
  match a.carries with
  | some r => FeedFrame a.frame ∧ (a.frame.drop kHeaderBytes).take kRecordBytes = r.bytes
  | none =>
      xdpRedirectFeed xsksMap queue a.frame = .pass ∨
        a.frame.length < kHeaderBytes + kRecordBytes

/-- The frames that the program redirects. -/
def redirected (xsksMap : XsksMap) (queue : Nat) (arrivals : List Arrival) : List (List UInt8) :=
  (arrivals.map Arrival.frame).filter fun frame => xdpRedirectFeed xsksMap queue frame ≠ .pass

section Arrivals

variable {xsksMap : XsksMap} {queue socket : Nat} {a : Arrival}

/-- A frame that carries a message is redirected, and the handler takes the message out of it. -/
theorem Arrival.Ok.message (hok : a.Ok xsksMap queue) (hqueue : queue < kMaxEntries)
    (hsocket : xsksMap queue = some socket) {r : FeedRecord} (hr : a.carries = some r) :
    xdpRedirectFeed xsksMap queue a.frame = .redirect socket ∧
      messageOf a.frame = some r.msg := by
  unfold Arrival.Ok at hok
  rw [hr] at hok
  obtain ⟨hfeed, hpayload⟩ := hok
  refine ⟨?_, ?_⟩
  · rw [xdpRedirectFeed_eq, if_pos hfeed, bpfRedirectMap, if_pos hqueue, hsocket]
  · have hlen := congrArg List.length hpayload
    rw [FeedRecord.length_bytes, List.length_take, List.length_drop] at hlen
    rw [messageOf, if_neg (by unfold kRecordBytes at *; omega), hpayload, FeedRecord.ofBytes_bytes]

/-- Any other frame is not redirected or holds no message. -/
theorem Arrival.Ok.other (hok : a.Ok xsksMap queue) (hnone : a.carries = none) :
    xdpRedirectFeed xsksMap queue a.frame = .pass ∨ messageOf a.frame = none := by
  unfold Arrival.Ok at hok
  rw [hnone] at hok
  refine hok.imp_right fun hshort => ?_
  rw [messageOf, if_pos hshort]

/-- The messages in the redirected frames are those that were sent. -/
theorem messages_redirected (hqueue : queue < kMaxEntries) (hsocket : xsksMap queue = some socket)
    (arrivals : List Arrival) (hok : ∀ a ∈ arrivals, a.Ok xsksMap queue) :
    (redirected xsksMap queue arrivals).filterMap messageOf =
      (arrivals.filterMap Arrival.carries).map FeedRecord.msg := by
  induction arrivals with
  | nil => rfl
  | cons a arrivals ih =>
      have hrest := ih fun a ha => hok a (List.mem_cons_of_mem _ ha)
      have ha := hok a (List.mem_cons_self)
      unfold redirected at hrest ⊢
      rw [List.map_cons, List.filterMap_cons]
      cases hcarries : a.carries with
      | some r =>
          obtain ⟨hredirect, hmsg⟩ := ha.message hqueue hsocket hcarries
          rw [List.filter_cons_of_pos (by simp [hredirect]), List.filterMap_cons, hmsg, hrest]
          rfl
      | none =>
          by_cases hpass : xdpRedirectFeed xsksMap queue a.frame = .pass
          · rw [List.filter_cons_of_neg (by simp [hpass]), hrest]
          · have hmsg := (ha.other hcarries).resolve_left hpass
            rw [List.filter_cons_of_pos (by simpa using hpass), List.filterMap_cons, hmsg, hrest]

end Arrivals

/-! ## The two paths -/

/-- Once `poll` has emptied the RX ring, the handler has been called with every posted frame. -/
theorem XdpSystem.Owns.handled_eq_posted {frameCount frameSize : Nat} {log : List XdpEvent}
    {s : XdpSystem frameCount frameSize} (h : s.Owns log) (hidle : s.poll = .idle)
    (hempty : s.rx.producer = s.rx.consumer) : handledFrames log = posted log := by
  refine h.inOrder.eq_of_length ?_
  rw [h.waiting hidle, hempty, UInt32.sub_self]
  rfl

/-- The AF_XDP path equals the replay of a file. For messages that arrive as frames of the feed,
among other frames, and however the kernel and the calls of `poll` interleave: if a socket is
registered for the queue, the kernel posts the redirected frames in order and without loss, and
`poll` has emptied the RX ring, then every frame that carries a message is redirected, exactly the
messages are applied, in order, the report is that of the replay, and the other frames leave the
book alone. -/
theorem listen_eq_replay {poolCapacity windowSize frameCount frameSize : Nat} {xsksMap : XsksMap}
    {queue socket : Nat} (hqueue : queue < kMaxEntries) (hsocket : xsksMap queue = some socket)
    (arrivals : List Arrival) (hok : ∀ a ∈ arrivals, a.Ok xsksMap queue) (msgs : FeedVector)
    (hmsgs : arrivals.filterMap Arrival.carries = msgs.records) {fillDescs : Nat → UInt64}
    {rxDescs : Nat → XdpDesc} {umem : Nat → UInt8} {s₀ s : XdpSystem frameCount frameSize}
    (hopen : XdpSystem.openSocket fillDescs rxDescs umem = some s₀) (steps : List XdpStep)
    (log : List XdpEvent) (hrun : s₀.run steps = some (s, log))
    (hdelivered : (posted log).map Prod.snd = redirected xsksMap queue arrivals)
    (hidle : s.poll = .idle) (hempty : s.rx.producer = s.rx.consumer) :
    (∀ a ∈ arrivals, a.carries.isSome →
      xdpRedirectFeed xsksMap queue a.frame = .redirect socket) ∧
    ((handledFrames log).map Prod.snd).filterMap messageOf = msgs.records.map FeedRecord.msg ∧
    runReplay poolCapacity windowSize (saveFeedFile true none msgs).2 =
      .ok (some (runXdpListen poolCapacity windowSize ((handledFrames log).map Prod.snd))) ∧
    ∀ a ∈ arrivals, a.carries = none → xdpRedirectFeed xsksMap queue a.frame = .pass ∨
      ∀ state : OrderBook poolCapacity windowSize × BookSignals,
        onFrame state a.frame = .ok state := by
  obtain ⟨hvalid, hinv⟩ := XdpSystem.open_inv hopen
  obtain ⟨_, _, _, _, _, h⟩ := XdpSystem.run_inv hvalid hinv hrun
  rw [List.nil_append] at h
  have hframes : (handledFrames log).map Prod.snd = redirected xsksMap queue arrivals := by
    rw [(h.owns hvalid).handled_eq_posted hidle hempty, hdelivered]
  have hmessages : ((handledFrames log).map Prod.snd).filterMap messageOf =
      msgs.records.map FeedRecord.msg := by
    rw [hframes, messages_redirected hqueue hsocket arrivals hok, hmsgs]
  refine ⟨fun a ha hcarries => ?_, hmessages, ?_, fun a ha hnone => ?_⟩
  · obtain ⟨r, hr⟩ := Option.isSome_iff_exists.mp hcarries
    exact ((hok a ha).message hqueue hsocket hr).1
  · have hload : loadFeedFile (saveFeedFile true none msgs).2 .empty = .ok (true, msgs) := by
      have hsaved := load_savedBytes msgs [] .empty
      rwa [List.append_nil] at hsaved
    rw [runXdpListen_eq, hmessages, runReplay, hload]
    rfl
  · refine ((hok a ha).other hnone).imp_right fun hmsg state => ?_
    rw [onFrame, hmsg]
    rfl

/-- The headers of a frame of the feed. -/
def feedHeader : List UInt8 :=
  List.replicate 12 0 ++ [0x08, 0x00, 0x45] ++ List.replicate 8 0 ++ [17] ++ List.replicate 12 0 ++
    [0x27, 0x0f] ++ List.replicate 4 0

/-- An order to buy. -/
def feedRecord : FeedRecord :=
  ⟨⟨.addOrder, .buy, 1, 100, 5, 0⟩, Vector.replicate 6 0, by decide, by decide⟩

/-- An order to sell at the same price. -/
def saleRecord : FeedRecord :=
  ⟨⟨.addOrder, .sell, 2, 100, 3, 1⟩, Vector.replicate 6 0, by decide, by decide⟩

/-- A message, a frame of another protocol, a frame of the feed without a message, and a second
message. -/
def feedArrivals : List Arrival :=
  [⟨feedHeader ++ feedRecord.bytes, some feedRecord⟩, ⟨List.replicate 60 0, none⟩,
    ⟨feedHeader, none⟩, ⟨feedHeader ++ saleRecord.bytes, some saleRecord⟩]

/-- The kernel posts two frames, which `poll` handles in one batch, and a third one, which the next
call of `poll` handles. -/
def feedSteps : List XdpStep :=
  [.take, .take, .post 1 0 (feedHeader ++ feedRecord.bytes), .post 0 16 feedHeader, .loadConsumer,
    .loadProducer, .handleFrame, .handleFrame, .storeConsumer, .loadFillProducer, .writeFill,
    .writeFill, .storeFillProducer, .take, .post 1 8 (feedHeader ++ saleRecord.bytes),
    .loadConsumer, .loadProducer, .handleFrame, .storeConsumer, .loadFillProducer, .writeFill,
    .storeFillProducer]

/-- Two messages among four arrivals trade with each other as they do when they are replayed. -/
theorem listen_eq_replay_two_polls :
    ∃ frames result, frames.filterMap messageOf = [feedRecord.msg, saleRecord.msg] ∧
      runXdpListen 2 64 frames = .ok result ∧
      runReplay 2 64 (saveFeedFile true none ⟨[feedRecord, saleRecord], by decide⟩).2 =
        .ok (some (.ok result)) ∧ result.fills = [⟨1, 2, 100, 3⟩] ∧
      (result.bestBid, result.bestAsk, result.totalRestingQty) = (some 100, none, 2) := by
  have hview : ((XdpSystem.openSocket (fun _ => 0) (fun _ => ⟨0, 0⟩) (fun _ => 0) :
      Option (XdpSystem 2 128)).bind fun s₀ => (s₀.run feedSteps).map fun r =>
        ((posted r.2).map Prod.snd, r.1.poll, r.1.rx.producer, r.1.rx.consumer)) =
      some ([feedHeader ++ feedRecord.bytes, feedHeader, feedHeader ++ saleRecord.bytes], .idle, 3,
        3) := by decide +kernel
  obtain ⟨s₀, hopen, hrest⟩ := Option.bind_eq_some_iff.mp hview
  obtain ⟨⟨s, log⟩, hrun, hobs⟩ := Option.map_eq_some_iff.mp hrest
  obtain ⟨hposted, hobs⟩ := Prod.mk.inj hobs
  obtain ⟨hidle, hobs⟩ := Prod.mk.inj hobs
  obtain ⟨hproducer, hconsumer⟩ := Prod.mk.inj hobs
  have hok : ∀ a ∈ feedArrivals, a.Ok (fun _ => some 3) 0 := by
    intro a ha
    simp only [feedArrivals, List.mem_cons, List.not_mem_nil, or_false] at ha
    rcases ha with rfl | rfl | rfl | rfl
    · exact ⟨by decide, rfl⟩
    · exact Or.inl (by decide)
    · exact Or.inr (by decide)
    · exact ⟨by decide, rfl⟩
  have hredirected : redirected (fun _ => some 3) 0 feedArrivals =
      [feedHeader ++ feedRecord.bytes, feedHeader, feedHeader ++ saleRecord.bytes] := by decide
  have hqueue : 0 < kMaxEntries := by decide
  have hsocket : (fun _ => some 3 : XsksMap) 0 = some 3 := rfl
  obtain ⟨-, hmessages, hreplay, -⟩ := listen_eq_replay hqueue hsocket feedArrivals hok
    ⟨[feedRecord, saleRecord], by decide⟩ rfl hopen feedSteps log hrun
    (hposted.trans hredirected.symm) hidle (hproducer.trans hconsumer.symm)
  have hreport : ((({} : OrderBook 2 64).applyMessages [feedRecord.msg, saleRecord.msg] >>=
      report) >>= fun r => (.ok (r.fills, r.bestBid, r.bestAsk, r.totalRestingQty) :
        Result (List Fill × Option Price × Option Price × Quantity))) =
      .ok ([⟨1, 2, 100, 3⟩], some 100, none, 2) := by decide +kernel
  obtain ⟨result, hresult, hseen⟩ := bind_eq_ok.mp hreport
  obtain ⟨hfills, hquotes⟩ := Prod.mk.inj (Except.ok.inj hseen)
  have hlisten : runXdpListen 2 64 ((handledFrames log).map Prod.snd) = .ok result := by
    rw [runXdpListen_eq, hmessages]
    exact hresult
  rw [hlisten] at hreplay
  exact ⟨_, result, hmessages, hlisten, hreplay, hfills, hquotes⟩

end LimitOrderBook
