import LimitOrderBook.Latency.Rows

/-!
# Measuring leaves the pipeline alone

The passes of the benchmark and the loop of the listener. Whatever the clocks read, the book goes
through the same states and the same snapshots are offered to `publish`: in the pass that warms up
and in the timed one, with either book (`bench_measures`), and for every way in which the frames are
cut into batches (`listen_measures`). The histograms count each message once. If the calibration is
usable there are rows, and if the stamps ascend as well, a stage that contains another has a row
that is not below the row of the other in any column.
-/

namespace LimitOrderBook

open LatencyHistogram (Records)

variable {poolCapacity windowSize : Nat}

/-! ## Snapshots -/

/-- The book after the messages, with the snapshots offered on the way: one after each message. -/
structure Offers (msgs : List FeedMessage) (b : OrderBook poolCapacity windowSize)
    (sig : BookSignals) (offered : List BookSignals) : Prop where
  book : ({} : OrderBook poolCapacity windowSize).applyMessages msgs = .ok b
  sigLength : sig.imbalance.length = kNumImbalanceDepths
  length : offered.length = msgs.length
  snapshot : ∀ n s, offered[n]? = some s →
    snapshotAfter poolCapacity windowSize (msgs.take (n + 1)) = .ok s

/-- Before the first message. -/
theorem fresh_offers : Offers [] ({} : OrderBook poolCapacity windowSize) {} [] :=
  ⟨rfl, rfl, rfl, fun n s h => by cases h⟩

section Snapshots

variable {msgs : List FeedMessage} {b b' : OrderBook poolCapacity windowSize}
  {sig sig' : BookSignals} {offered : List BookSignals}

/-- A message is applied, and the signals of the book are offered. -/
theorem Offers.handle (h : Offers msgs b sig offered) {msg : FeedMessage}
    (happly : b.applyMessage msg = .ok b') (hsig : computeSignals b'.topLevels sig = .ok sig') :
    Offers (msgs ++ [msg]) b' sig' (offered ++ [sig']) := by
  have hbook : ({} : OrderBook poolCapacity windowSize).applyMessages (msgs ++ [msg]) = .ok b' := by
    rw [applyMessages_append, h.book]
    exact happly
  obtain ⟨hsnap, hlen⟩ := Listener.snapshotAfter_eq hbook h.sigLength hsig
  refine ⟨hbook, hlen, ?_, ?_⟩
  · rw [List.length_append, List.length_append, h.length]
    rfl
  · intro n s hn
    rcases Nat.lt_or_ge n offered.length with hlt | hge
    · rw [List.getElem?_append_left hlt] at hn
      have hle : n + 1 ≤ msgs.length := by
        rw [← h.length]
        exact hlt
      rw [List.take_append_of_le_length hle]
      exact h.snapshot n s hn
    · rw [List.getElem?_append_right hge] at hn
      obtain rfl := List.mem_singleton.mp (List.mem_of_getElem? hn)
      rw [List.take_of_length_le]
      · exact hsnap
      · rw [List.length_append, List.length_singleton, ← h.length]
        omega

end Snapshots

/-! ## Stages -/

/-- The stamps of a message follow one another. -/
structure StageStamps.Ascending (t : StageStamps) : Prop where
  book : t.t0 ≤ t.t1
  signals : t.t1 ≤ t.t2
  publish : t.t2 ≤ t.t3

instance {t : StageStamps} : Decidable t.Ascending :=
  decidable_of_iff (t.t0 ≤ t.t1 ∧ t.t1 ≤ t.t2 ∧ t.t2 ≤ t.t3)
    ⟨fun ⟨h, h', h''⟩ => ⟨h, h', h''⟩, fun ⟨h, h', h''⟩ => ⟨h, h', h''⟩⟩

/-- A stage that lies within another does not take longer. -/
theorem span_le {a b c d : UInt64} (hab : a ≤ b) (hbc : b ≤ c) (hcd : c ≤ d) :
    c - b ≤ d - a := by
  have had := UInt64.le_trans hab (UInt64.le_trans hbc hcd)
  rw [UInt64.le_iff_toNat_le, UInt64.toNat_sub_of_le _ _ hbc, UInt64.toNat_sub_of_le _ _ had]
  rw [UInt64.le_iff_toNat_le] at hab hbc hcd
  omega

/-- The histograms after the messages. -/
structure StageHistograms.Measures (h : StageHistograms)
    (done : List (FeedMessage × StageStamps)) : Prop where
  add : Records h.add
    ((done.filter fun m => m.1.type = .addOrder).map fun m => m.2.t1 - m.2.t0)
  cancel : Records h.cancel
    ((done.filter fun m => m.1.type ≠ .addOrder).map fun m => m.2.t1 - m.2.t0)
  signals : Records h.signals (done.map fun m => m.2.t2 - m.2.t1)
  publish : Records h.publish (done.map fun m => m.2.t3 - m.2.t2)
  total : Records h.total (done.map fun m => m.2.t3 - m.2.t0)

/-- Before the first message. -/
theorem fresh_measures : StageHistograms.Measures {} [] :=
  have hfresh := LatencyHistogram.fresh_records
  ⟨hfresh, hfresh, hfresh, hfresh, hfresh⟩

section Record

variable {done : List (FeedMessage × StageStamps)} {m : FeedMessage × StageStamps}
  {p : FeedMessage × StageStamps → Bool} {stage : FeedMessage × StageStamps → UInt64}

/-- A message of the kind that is measured. -/
theorem times_append_of_pos (hm : p m = true) :
    ((done ++ [m]).filter p).map stage = (done.filter p).map stage ++ [stage m] := by
  rw [List.filter_append, List.filter_singleton, hm, List.map_append]
  rfl

/-- A message of another kind. -/
theorem times_append_of_neg (hm : p m = false) :
    ((done ++ [m]).filter p).map stage = (done.filter p).map stage := by
  rw [List.filter_append, List.filter_singleton, hm]
  exact congrArg _ (List.append_nil _)

/-- Every message is counted once, in the histogram of its kind and in those of the later stages. -/
theorem StageHistograms.Measures.record {h : StageHistograms} (hm : h.Measures done)
    (hlen : done.length + 1 < 2 ^ 64) (m : FeedMessage × StageStamps) :
    ∃ h', h.record m.1 m.2 = .ok h' ∧ h'.Measures (done ++ [m]) := by
  have hfilter : ∀ p : FeedMessage × StageStamps → Bool,
      ((done.filter p).map fun m => m.2.t1 - m.2.t0).length + 1 < 2 ^ 64 := by
    intro p
    rw [List.length_map]
    exact Nat.lt_of_le_of_lt (Nat.add_le_add_right (List.length_filter_le p done) 1) hlen
  have hmap : ∀ f : FeedMessage × StageStamps → UInt64, (done.map f).length + 1 < 2 ^ 64 := by
    intro f
    rwa [List.length_map]
  obtain ⟨signals, hsignals, hrsignals⟩ := hm.signals.record (hmap _) (m.2.t2 - m.2.t1)
  obtain ⟨publish, hpublish, hrpublish⟩ := hm.publish.record (hmap _) (m.2.t3 - m.2.t2)
  obtain ⟨total, htotal, hrtotal⟩ := hm.total.record (hmap _) (m.2.t3 - m.2.t0)
  by_cases hadd : m.1.type = .addOrder
  · obtain ⟨add, hrun, hradd⟩ := hm.add.record (hfilter _) (m.2.t1 - m.2.t0)
    refine ⟨⟨add, h.cancel, signals, publish, total⟩, ?_, ?_, ?_, ?_, ?_, ?_⟩
    · rw [StageHistograms.record, if_pos hadd, hrun]
      simp only [ok_bind, pure_eq_ok, hsignals, hpublish, htotal]
    · rwa [times_append_of_pos (decide_eq_true hadd)]
    · rw [times_append_of_neg (decide_eq_false (not_not.mpr hadd))]
      exact hm.cancel
    · rwa [List.map_append]
    · rwa [List.map_append]
    · rwa [List.map_append]
  · obtain ⟨cancel, hrun, hrcancel⟩ := hm.cancel.record (hfilter _) (m.2.t1 - m.2.t0)
    refine ⟨⟨h.add, cancel, signals, publish, total⟩, ?_, ?_, ?_, ?_, ?_, ?_⟩
    · rw [StageHistograms.record, if_neg hadd, hrun]
      simp only [ok_bind, pure_eq_ok, hsignals, hpublish, htotal]
    · rw [times_append_of_neg (decide_eq_false hadd)]
      exact hm.add
    · rwa [times_append_of_pos (decide_eq_true hadd)]
    · rwa [List.map_append]
    · rwa [List.map_append]
    · rwa [List.map_append]

end Record

/-- Each message of a feed is counted once in its histograms. -/
structure StageHistograms.Counts (h : StageHistograms) (msgs : List FeedMessage) : Prop where
  add : h.add.count.toNat = msgs.countP fun msg => msg.type = .addOrder
  cancel : h.cancel.count.toNat = msgs.countP fun msg => msg.type ≠ .addOrder
  stages : ∀ stage ∈ [h.signals, h.publish, h.total], stage.count.toNat = msgs.length

/-- What the rows of the stages say on a feed. -/
structure StageRows.Ok (rows : StageRows) (msgs : List FeedMessage) : Prop where
  add_count : rows.add.count.toNat = msgs.countP fun msg => msg.type = .addOrder
  cancel_count : rows.cancel.count.toNat = msgs.countP fun msg => msg.type ≠ .addOrder
  counts : ∀ row ∈ [rows.signals, rows.publish, rows.total], row.count.toNat = msgs.length
  ascending : ∀ row ∈ [rows.add, rows.cancel, rows.signals, rows.publish, rows.total],
    row.Ascending

/-- The stages are within the total. -/
structure StageRows.Within (rows : StageRows) : Prop where
  signals_below : rows.signals.Below rows.total
  publish_below : rows.publish.Below rows.total
  add_max : rows.add.max ≤ rows.total.max
  cancel_max : rows.cancel.max ≤ rows.total.max

section Rows

variable {h : StageHistograms} {done : List (FeedMessage × StageStamps)} {cal : StampCalibration}

/-- The time of the book stage is part of the total. -/
theorem StageHistograms.Measures.book_le (hclock : ∀ m ∈ done, m.2.Ascending)
    (p : FeedMessage × StageStamps → Bool) :
    ∀ v ∈ (done.filter p).map fun m => m.2.t1 - m.2.t0,
      ∃ w ∈ done.map fun m => m.2.t3 - m.2.t0, v ≤ w := by
  intro v hv
  obtain ⟨m, hm, rfl⟩ := List.mem_map.mp hv
  have hdone := List.mem_of_mem_filter hm
  have ht := hclock m hdone
  refine ⟨_, List.mem_map_of_mem hdone, ?_⟩
  exact span_le (UInt64.le_refl _) ht.book (UInt64.le_trans ht.signals ht.publish)

/-- The counts of the histograms after the messages. -/
theorem StageHistograms.Measures.counts (hm : h.Measures done) : h.Counts (done.map Prod.fst) := by
  constructor
  case add =>
    refine hm.add.total.trans ?_
    rw [List.length_map, ← List.countP_eq_length_filter, List.countP_map]
    rfl
  case cancel =>
    refine hm.cancel.total.trans ?_
    rw [List.length_map, ← List.countP_eq_length_filter, List.countP_map]
    rfl
  case stages =>
    simp only [List.forall_mem_cons]
    rw [List.length_map]
    refine ⟨hm.signals.total.trans ?_, hm.publish.total.trans ?_, hm.total.total.trans ?_,
      by simp⟩ <;> exact List.length_map _

/-- The rows of the histograms after the messages. -/
theorem StageHistograms.Measures.rows (hm : h.Measures done) (hlen : done.length < 2 ^ 64)
    (hcal : cal.Usable) : ∃ rows, h.rows cal = some rows ∧ rows.Ok (done.map Prod.fst) ∧
      ((∀ m ∈ done, m.2.Ascending) → rows.Within) := by
  have hmap : ∀ f : FeedMessage × StageStamps → UInt64, (done.map f).length < 2 ^ 64 := by
    intro f
    rwa [List.length_map]
  have hfilter : ∀ p : FeedMessage × StageStamps → Bool,
      ((done.filter p).map fun m => m.2.t1 - m.2.t0).length < 2 ^ 64 := by
    intro p
    rw [List.length_map]
    exact Nat.lt_of_le_of_lt (List.length_filter_le p done) hlen
  obtain ⟨add, hadd, hofadd⟩ := hm.add.row (hfilter _) hcal
  obtain ⟨cancel, hcancel, hofcancel⟩ := hm.cancel.row (hfilter _) hcal
  obtain ⟨signals, hsignals, hofsignals⟩ := hm.signals.row (hmap _) hcal
  obtain ⟨publish, hpublish, hofpublish⟩ := hm.publish.row (hmap _) hcal
  obtain ⟨total, htotal, hoftotal⟩ := hm.total.row (hmap _) hcal
  refine ⟨⟨add, cancel, signals, publish, total⟩, ?_, ?_, fun hclock => ?_⟩
  · rw [StageHistograms.rows, hadd, hcancel, hsignals, hpublish, htotal]
    rfl
  · constructor
    case add_count =>
      rw [hofadd.count]
      exact hm.counts.add
    case cancel_count =>
      rw [hofcancel.count]
      exact hm.counts.cancel
    case counts =>
      have hstages := hm.counts.stages
      simp only [List.forall_mem_cons] at hstages ⊢
      rw [hofsignals.count, hofpublish.count, hoftotal.count]
      exact ⟨hstages.1, hstages.2.1, hstages.2.2.1, by simp⟩
    case ascending =>
      simp only [List.forall_mem_cons]
      exact ⟨hm.add.row_ascending (hfilter _) hcal hofadd,
        hm.cancel.row_ascending (hfilter _) hcal hofcancel,
        hm.signals.row_ascending (hmap _) hcal hofsignals,
        hm.publish.row_ascending (hmap _) hcal hofpublish,
        hm.total.row_ascending (hmap _) hcal hoftotal, by simp⟩
  · constructor
    case signals_below =>
      refine hm.signals.row_below hm.total (hmap _) ?_ hcal hofsignals hoftotal
      refine List.forall₂_map_left_iff.mpr (List.forall₂_map_right_iff.mpr ?_)
      refine List.forall₂_same.mpr fun m hmem => ?_
      exact span_le (hclock m hmem).book (hclock m hmem).signals (hclock m hmem).publish
    case publish_below =>
      refine hm.publish.row_below hm.total (hmap _) ?_ hcal hofpublish hoftotal
      refine List.forall₂_map_left_iff.mpr (List.forall₂_map_right_iff.mpr ?_)
      refine List.forall₂_same.mpr fun m hmem => ?_
      exact span_le (UInt64.le_trans (hclock m hmem).book (hclock m hmem).signals)
        (hclock m hmem).publish (UInt64.le_refl _)
    case add_max =>
      exact hcal.toNs_mono hm.total.max_lt
        (hm.add.max_le hm.total (StageHistograms.Measures.book_le hclock _)) hofadd.max hoftotal.max
    case cancel_max =>
      exact hcal.toNs_mono hm.total.max_lt
        (hm.cancel.max_le hm.total (StageHistograms.Measures.book_le hclock _)) hofcancel.max
        hoftotal.max

end Rows

/-! ## The passes of the benchmark -/

/-- What the histograms of a pass have counted, if it has any. -/
def Recorded (hist : Option StageHistograms) (done : List (FeedMessage × StageStamps)) : Prop :=
  ∀ h ∈ hist, h.Measures done

/-- There are signals for every depth. -/
theorem exists_computeSignals (topLevels : Side → Nat → List LevelQty) {out : BookSignals}
    (hlen : out.imbalance.length = kNumImbalanceDepths) :
    ∃ sig, computeSignals topLevels out = .ok sig ∧
      sig.imbalance.length = kNumImbalanceDepths := by
  refine ⟨_, computeSignals_eq topLevels hlen, ?_⟩
  rw [List.length_map]
  rfl

section Passes

variable {B B' : BenchBook}

/-- One message of a pass, for a book that takes it. -/
theorem Pass.step_ok {p : Pass B} {m : FeedMessage × StageStamps} {book : B.Book}
    {done : List (FeedMessage × StageStamps)} (hbook : B.applyMessage p.book m.1 = .ok book)
    (hsig : p.sig.imbalance.length = kNumImbalanceDepths) (hrec : Recorded p.hist done)
    (hlen : done.length + 1 < 2 ^ 64) :
    ∃ sig hist, computeSignals (B.topLevels book) p.sig = .ok sig ∧
      sig.imbalance.length = kNumImbalanceDepths ∧
      p.step m = .ok ⟨book, sig, p.offered ++ [sig], hist⟩ ∧
      hist.isSome = p.hist.isSome ∧ Recorded hist (done ++ [m]) := by
  obtain ⟨sig, hcompute, hlength⟩ := exists_computeSignals (B.topLevels book) hsig
  unfold Pass.step
  rw [hbook, ok_bind, hcompute, ok_bind]
  cases hhist : p.hist with
  | none => exact ⟨sig, none, rfl, hlength, rfl, rfl, fun h hh => by cases hh⟩
  | some h =>
      obtain ⟨h', hrecord, hm'⟩ := (hrec h hhist).record hlen m
      refine ⟨sig, some h', rfl, hlength, ?_, rfl, ?_⟩
      · simp only [hrecord, ok_bind, pure_eq_ok]
      · intro h hh
        obtain rfl := Option.some_inj.mp hh
        exact hm'

/-- Two passes that have offered the same snapshots, with books that are related and what is left of
the feed. -/
structure Pass.Alike (r : B.Book → B'.Book → List FeedMessage → Prop) (rest : List FeedMessage)
    (p : Pass B) (p' : Pass B') : Prop where
  book : r p.book p'.book rest
  sig : p'.sig = p.sig
  sigLength : p.sig.imbalance.length = kNumImbalanceDepths
  offered : p'.offered = p.offered

/-- Passes over the same messages with books that show the same depth offer the same snapshots,
whatever they measure. -/
theorem Pass.Alike.run {r : B.Book → B'.Book → List FeedMessage → Prop}
    (htop : ∀ b b' rest, r b b' rest → B'.topLevels b' = B.topLevels b)
    (hnext : ∀ b b' msg rest, r b b' (msg :: rest) → ∃ c c', B.applyMessage b msg = .ok c ∧
      B'.applyMessage b' msg = .ok c' ∧ r c c' rest)
    {msgs : List FeedMessage} : ∀ {ms ms' done done' : List (FeedMessage × StageStamps)}
      {p : Pass B} {p' : Pass B'}, ms.map Prod.fst = msgs → ms'.map Prod.fst = msgs →
      p.Alike r msgs p' → Recorded p.hist done → Recorded p'.hist done' →
      done.length + msgs.length < 2 ^ 64 → done'.length + msgs.length < 2 ^ 64 →
      ∃ q q', ms.foldlM Pass.step p = .ok q ∧ ms'.foldlM Pass.step p' = .ok q' ∧
        q.Alike r [] q' ∧ q.hist.isSome = p.hist.isSome ∧ q'.hist.isSome = p'.hist.isSome ∧
        Recorded q.hist (done ++ ms) ∧ Recorded q'.hist (done' ++ ms') := by
  induction msgs with
  | nil =>
      intro ms ms' done done' p p' hms hms' halike hrec hrec' _ _
      obtain rfl := List.map_eq_nil_iff.mp hms
      obtain rfl := List.map_eq_nil_iff.mp hms'
      rw [List.append_nil, List.append_nil]
      exact ⟨p, p', rfl, rfl, halike, rfl, rfl, hrec, hrec'⟩
  | cons msg msgs ih =>
      intro ms ms' done done' p p' hms hms' halike hrec hrec' hlen hlen'
      obtain ⟨m, ms, rfl, hmsg, hrest⟩ := List.map_eq_cons_iff.mp hms
      obtain ⟨m', ms', rfl, hmsg', hrest'⟩ := List.map_eq_cons_iff.mp hms'
      rw [List.length_cons] at hlen hlen'
      obtain ⟨c, c', hc, hc', hr⟩ := hnext _ _ _ _ halike.book
      rw [← hmsg] at hc
      rw [← hmsg'] at hc'
      obtain ⟨sig, hist, hsig, hlength, hstep, hsome, hrec₁⟩ :=
        Pass.step_ok hc halike.sigLength hrec (by omega)
      obtain ⟨sig', hist', hsig', -, hstep', hsome', hrec₁'⟩ :=
        Pass.step_ok hc' (halike.sig ▸ halike.sigLength) hrec' (by omega)
      rw [halike.sig, htop c c' msgs hr] at hsig'
      obtain rfl := Except.ok.inj (hsig.symm.trans hsig')
      have halike' : Pass.Alike r msgs ⟨c, sig, p.offered ++ [sig], hist⟩
          ⟨c', sig, p'.offered ++ [sig], hist'⟩ :=
        ⟨hr, rfl, hlength, by rw [halike.offered]⟩
      obtain ⟨q, q', hq, hq', hfinal, hsomeq, hsomeq', hrecq, hrecq'⟩ :=
        ih hrest hrest' halike' hrec₁ hrec₁' (by rw [List.length_append]; simp; omega)
          (by rw [List.length_append]; simp; omega)
      refine ⟨q, q', ?_, ?_, hfinal, hsomeq.trans hsome, hsomeq'.trans hsome', ?_, ?_⟩
      · rw [List.foldlM_cons, hstep]
        exact hq
      · rw [List.foldlM_cons, hstep']
        exact hq'
      · rwa [List.append_assoc] at hrecq
      · rwa [List.append_assoc] at hrecq'

end Passes

section Books

variable {b : OrderBook poolCapacity windowSize} {mb : MapOrderBook poolCapacity}
  {sb sa : List Shelf} {msg : FeedMessage} {rest : List FeedMessage}

/-- The prices of the new orders are in range. -/
def PricesInRange (windowSize : Nat) (msgs : List FeedMessage) : Prop :=
  ∀ msg ∈ msgs, msg.type = .addOrder → PriceInRange windowSize msg.price

instance {msgs : List FeedMessage} : Decidable (PricesInRange windowSize msgs) :=
  inferInstanceAs (Decidable (∀ msg ∈ msgs, _))

/-- No new order has the id of one that rests. -/
def NoDuplicates (b : OrderBook poolCapacity windowSize) (msgs : List FeedMessage) : Prop :=
  b.noDuplicates (msgs.filterMap FeedMessage.call?) = true

instance {msgs : List FeedMessage} : Decidable (NoDuplicates b msgs) :=
  inferInstanceAs (Decidable (_ = true))

/-- The books in lockstep take the same messages. -/
theorem applyMessage_lockstep (hvalid : ValidWindow windowSize) (hlock : Lockstep b mb sb sa)
    (hrange : PricesInRange windowSize (msg :: rest)) (hnew : NoDuplicates b (msg :: rest)) :
    ∃ b' mb' sb' sa', b.applyMessage msg = .ok b' ∧ mb.applyMessage msg = .ok mb' ∧
      Lockstep b' mb' sb' sa' ∧ NoDuplicates b' rest := by
  unfold NoDuplicates at hnew ⊢
  unfold OrderBook.applyMessage MapOrderBook.applyMessage
  rw [List.filterMap_cons] at hnew
  by_cases hadd : msg.type = .addOrder
  · have hcall : msg.call? = some (.add msg.id msg.side msg.price msg.qty msg.ts) := if_pos hadd
    rw [hcall, OrderBook.noDuplicates, Bool.and_eq_true, Bool.not_eq_true',
      RestingBook.rests_eq_false] at hnew
    obtain ⟨hfresh, hnew⟩ := hnew
    rw [if_pos hadd, if_pos hadd]
    rcases addOrder_refines hvalid hlock msg.id msg.side msg.qty msg.ts
        (hrange msg List.mem_cons_self hadd) with
      ⟨⟨r, hr, hid⟩, -⟩ | ⟨-, -, hrun, hrun'⟩ | ⟨b', mb', sb', sa', -, -, hrun, hrun', hlock', -⟩
    · exact absurd hid (hfresh r hr)
    · rw [hrun] at hnew ⊢
      exact ⟨_, mb, sb, sa, rfl, hrun', hlock.setStats _, hnew⟩
    · rw [hrun] at hnew ⊢
      exact ⟨b', mb', sb', sa', rfl, hrun', hlock', hnew⟩
  · rw [if_neg hadd, if_neg hadd]
    by_cases hcancel : msg.type = .cancelOrder
    · have hcall : msg.call? = some (.cancel msg.id) := by
        rw [FeedMessage.call?, if_neg hadd, if_pos hcancel]
      rw [hcall, OrderBook.noDuplicates] at hnew
      rw [if_pos hcancel, if_pos hcancel]
      rcases cancelOrder_refines hvalid hlock msg.id with
        ⟨-, hrun, hrun'⟩ | ⟨b', mb', sb', sa', -, hrun, hrun', hlock', -⟩
      · rw [hrun] at hnew ⊢
        rw [hrun']
        exact ⟨b, mb, sb, sa, rfl, rfl, hlock, hnew⟩
      · rw [hrun] at hnew ⊢
        rw [hrun']
        exact ⟨b', mb', sb', sa', rfl, rfl, hlock', hnew⟩
    · have hcall : msg.call? = none := by
        rw [FeedMessage.call?, if_neg hadd, if_neg hcancel]
      rw [hcall] at hnew
      rw [if_neg hcancel, if_neg hcancel]
      exact ⟨b, mb, sb, sa, rfl, rfl, hlock, hnew⟩

end Books

section Bench

variable {msgs : List FeedMessage}

/-- The messages keep their order. -/
theorem map_fst_stamped (clock : Nat → StageStamps) : (stamped msgs clock).map Prod.fst = msgs := by
  refine List.ext_getElem? fun i => ?_
  rw [stamped, List.getElem?_map, List.getElem?_mapIdx, Option.map_map]
  exact Option.map_id_apply

/-- The stamps of a message are those of the clock. -/
theorem ascending_of_mem_stamped {clock : Nat → StageStamps} (hclock : ∀ i, (clock i).Ascending) :
    ∀ m ∈ stamped msgs clock, m.2.Ascending := by
  intro m hm
  obtain ⟨i, hi, rfl⟩ := List.mem_mapIdx.mp hm
  exact hclock i

/-- A pass with the order book offers the snapshots of the feed. -/
theorem Pass.offers {ms : List (FeedMessage × StageStamps)} :
    ∀ {done : List FeedMessage} {p q : Pass (ladderBook poolCapacity windowSize)},
      Offers done p.book p.sig p.offered → ms.foldlM Pass.step p = .ok q →
      Offers (done ++ ms.map Prod.fst) q.book q.sig q.offered := by
  induction ms with
  | nil =>
      intro done p q h hrun
      obtain rfl := Except.ok.inj hrun
      rwa [List.map_nil, List.append_nil]
  | cons m ms ih =>
      intro done p q h hrun
      rw [List.foldlM_cons] at hrun
      obtain ⟨p₁, hstep, hrest⟩ := bind_eq_ok.mp hrun
      obtain ⟨b, hb, hstep⟩ := bind_eq_ok.mp hstep
      obtain ⟨sig, hsig, hstep⟩ := bind_eq_ok.mp hstep
      obtain ⟨hist, -, hstep⟩ := bind_eq_ok.mp hstep
      obtain rfl := Except.ok.inj hstep
      have hdone := ih (h.handle hb hsig) hrest
      rwa [List.append_assoc] at hdone

/-- The passes of the benchmark on two books, for a relation that their messages keep. -/
theorem bench_alike (B B' : BenchBook) (r : B.Book → B'.Book → List FeedMessage → Prop)
    (htop : ∀ b b' rest, r b b' rest → B'.topLevels b' = B.topLevels b)
    (hnext : ∀ b b' msg rest, r b b' (msg :: rest) → ∃ c c', B.applyMessage b msg = .ok c ∧
      B'.applyMessage b' msg = .ok c' ∧ r c c' rest)
    (hfresh : r B.fresh B'.fresh msgs) (hlen : msgs.length < 2 ^ 64)
    {hist hist' : Option StageHistograms} (hhist : Recorded hist []) (hhist' : Recorded hist' [])
    (clock clock' : Nat → StageStamps) :
    ∃ q q', runPass B hist (stamped msgs clock) = .ok q ∧
      runPass B' hist' (stamped msgs clock') = .ok q' ∧ r q.book q'.book [] ∧
      q'.offered = q.offered ∧ q.hist.isSome = hist.isSome ∧ q'.hist.isSome = hist'.isSome ∧
      Recorded q.hist (stamped msgs clock) ∧ Recorded q'.hist (stamped msgs clock') := by
  have halike : Pass.Alike r msgs ({ hist := hist } : Pass B) ({ hist := hist' } : Pass B') :=
    ⟨hfresh, rfl, rfl, rfl⟩
  have hsum : ([] : List (FeedMessage × StageStamps)).length + msgs.length < 2 ^ 64 := by
    rwa [List.length_nil, Nat.zero_add]
  obtain ⟨q, q', hq, hq', hfinal, hsome, hsome', hrec, hrec'⟩ := Pass.Alike.run htop hnext
    (map_fst_stamped clock) (map_fst_stamped clock') halike hhist hhist' hsum hsum
  exact ⟨q, q', hq, hq', hfinal.book, hfinal.offered, hsome, hsome', hrec, hrec'⟩

/-- The same order book, which can go on with the rest of the feed. -/
def SameBook (b b' : OrderBook poolCapacity windowSize) (rest : List FeedMessage) : Prop :=
  b' = b ∧ PricesInRange windowSize rest ∧ ∃ mb sb sa, Lockstep b mb sb sa

/-- The two books in lockstep, which can go on with the rest of the feed. -/
def InStep (b : OrderBook poolCapacity windowSize) (mb : MapOrderBook poolCapacity)
    (rest : List FeedMessage) : Prop :=
  PricesInRange windowSize rest ∧ NoDuplicates b rest ∧ ∃ sb sa, Lockstep b mb sb sa

/-- Two passes with the order book. -/
theorem runPass_same (hvalid : ValidWindow windowSize)
    (hfresh : SameBook ({} : OrderBook poolCapacity windowSize) {} msgs)
    (hlen : msgs.length < 2 ^ 64) {hist hist' : Option StageHistograms} (hhist : Recorded hist [])
    (hhist' : Recorded hist' []) (clock clock' : Nat → StageStamps) :
    ∃ q q', runPass (ladderBook poolCapacity windowSize) hist (stamped msgs clock) = .ok q ∧
      runPass (ladderBook poolCapacity windowSize) hist' (stamped msgs clock') = .ok q' ∧
      SameBook q.book q'.book [] ∧ q'.offered = q.offered ∧ q.hist.isSome = hist.isSome ∧
      q'.hist.isSome = hist'.isSome ∧ Recorded q.hist (stamped msgs clock) ∧
      Recorded q'.hist (stamped msgs clock') := by
  refine bench_alike (ladderBook poolCapacity windowSize) (ladderBook poolCapacity windowSize)
    SameBook ?_ ?_ hfresh hlen hhist hhist' clock clock'
  · intro b b' rest h
    rw [h.1]
  · intro b b' msg rest h
    obtain ⟨hbook, hrange, mb, sb, sa, hlock⟩ := h
    obtain ⟨c, mb', sb', sa', hrun, -, hlock'⟩ := applyMessage_refines hvalid hlock
      (hrange msg List.mem_cons_self)
    have hrest : PricesInRange windowSize rest := fun m hm => hrange m (List.mem_cons_of_mem _ hm)
    rw [hbook]
    exact ⟨c, c, hrun, hrun, rfl, hrest, mb', sb', sa', hlock'⟩

/-- A pass with the order book and one with the map-backed book. -/
theorem runPass_swapped (hvalid : ValidWindow windowSize)
    (hfresh : InStep ({} : OrderBook poolCapacity windowSize) {} msgs)
    (hlen : msgs.length < 2 ^ 64) {hist hist' : Option StageHistograms} (hhist : Recorded hist [])
    (hhist' : Recorded hist' []) (clock clock' : Nat → StageStamps) :
    ∃ q q', runPass (ladderBook poolCapacity windowSize) hist (stamped msgs clock) = .ok q ∧
      runPass (mapBook poolCapacity) hist' (stamped msgs clock') = .ok q' ∧
      InStep q.book q'.book [] ∧ q'.offered = q.offered ∧ q.hist.isSome = hist.isSome ∧
      q'.hist.isSome = hist'.isSome ∧ Recorded q.hist (stamped msgs clock) ∧
      Recorded q'.hist (stamped msgs clock') := by
  refine bench_alike (ladderBook poolCapacity windowSize) (mapBook poolCapacity) InStep ?_ ?_ hfresh
    hlen hhist hhist' clock clock'
  · intro b mb rest h
    obtain ⟨-, -, sb, sa, hlock⟩ := h
    funext side n
    exact (hlock.topLevels_eq hvalid side n).2
  · intro b mb msg rest h
    obtain ⟨hrange, hnew, sb, sa, hlock⟩ := h
    obtain ⟨b', mb', sb', sa', hrun, hrun', hlock', hnew'⟩ :=
      applyMessage_lockstep hvalid hlock hrange hnew
    have hrest : PricesInRange windowSize rest := fun m hm => hrange m (List.mem_cons_of_mem _ hm)
    exact ⟨b', mb', hrun, hrun', hrest, hnew', sb', sa', hlock'⟩

/-- The timed pass has counted its messages. -/
def Counted {B : BenchBook} (msgs : List FeedMessage) (p : Pass B) : Prop :=
  ∃ h, p.hist = some h ∧ h.Counts msgs

/-- The rows that the benchmark prints after its timed pass. -/
def Timed {B : BenchBook} (msgs : List FeedMessage) (clock : Nat → StageStamps)
    (cal : StampCalibration) (p : Pass B) : Prop :=
  ∃ h rows, p.hist = some h ∧ h.rows cal = some rows ∧ rows.Ok msgs ∧
    ((∀ i, (clock i).Ascending) → rows.Within)

section Timed

variable {B : BenchBook} {p : Pass B} {clock : Nat → StageStamps}

/-- The counts of a pass that has measured its messages. -/
theorem Recorded.counted (hrec : Recorded p.hist (stamped msgs clock))
    (hsome : p.hist.isSome = true) : Counted msgs p := by
  obtain ⟨h, hh⟩ := Option.isSome_iff_exists.mp hsome
  have hcounts := (hrec h hh).counts
  rw [map_fst_stamped] at hcounts
  exact ⟨h, hh, hcounts⟩

/-- The rows of a pass that has measured its messages. -/
theorem Recorded.timed {cal : StampCalibration} (hrec : Recorded p.hist (stamped msgs clock))
    (hsome : p.hist.isSome = true) (hlen : msgs.length < 2 ^ 64) (hcal : cal.Usable) :
    Timed msgs clock cal p := by
  obtain ⟨h, hh⟩ := Option.isSome_iff_exists.mp hsome
  have hstamped : (stamped msgs clock).length < 2 ^ 64 := by
    rwa [stamped, List.length_mapIdx]
  obtain ⟨rows, hrows, hok, hwithin⟩ := (hrec h hh).rows hstamped hcal
  rw [map_fst_stamped] at hok
  exact ⟨h, rows, hh, hrows, hok, fun hclock => hwithin (ascending_of_mem_stamped hclock)⟩

end Timed

/-- A pass without histograms. -/
theorem recorded_none (done : List (FeedMessage × StageStamps)) : Recorded none done :=
  fun _ hh => by cases hh

/-- A pass with fresh histograms. -/
theorem recorded_fresh : Recorded (some {}) [] := by
  intro h hh
  obtain rfl := Option.some_inj.mp hh
  exact fresh_measures

end Bench

/-- The benchmark goes through the states of the feed, whatever the clocks read: the pass that warms
up and the timed one end with the same book and offer the snapshots after each message, and so do
both passes with the map-backed book if no new order has the id of one that rests. Each message is
counted once. The rows that are printed with a usable calibration ascend, and show the stages within
the total if the stamps ascend. -/
theorem bench_measures (hvalid : ValidWindow windowSize) {msgs : List FeedMessage}
    (hrange : PricesInRange windowSize msgs) (hlen : msgs.length < 2 ^ 64)
    (warmClock clock : Nat → StageStamps) :
    ∃ warm timed, bench (ladderBook poolCapacity windowSize) msgs warmClock clock =
        .ok (warm, timed) ∧
      Offers msgs timed.book timed.sig timed.offered ∧ warm.offered = timed.offered ∧
      warm.book = timed.book ∧ Counted msgs timed ∧
      (∀ cal : StampCalibration, cal.Measured → (∃ mhz, cal.mhz = some mhz) ∧
        (cal.Usable → Timed msgs clock cal timed)) ∧
      (NoDuplicates ({} : OrderBook poolCapacity windowSize) msgs → ∀ warmClock' clock',
        ∃ warm' timed', bench (mapBook poolCapacity) msgs warmClock' clock' =
            .ok (warm', timed') ∧
          warm'.offered = timed.offered ∧ timed'.offered = timed.offered ∧
          (mapBook poolCapacity).fills warm'.book =
            (ladderBook poolCapacity windowSize).fills timed.book ∧
          (mapBook poolCapacity).fills timed'.book =
            (ladderBook poolCapacity windowSize).fills timed.book ∧
          Counted msgs timed' ∧
          ∀ cal : StampCalibration, cal.Usable → Timed msgs clock' cal timed') := by
  have hlock : ∃ mb sb sa, Lockstep ({} : OrderBook poolCapacity windowSize) mb sb sa :=
    ⟨{}, [], [], fresh_lockstep⟩
  obtain ⟨warm, timed, hwarm, htimed, ⟨hbook, -⟩, hoffered, -, hsome, -, hrec⟩ :=
    runPass_same hvalid ⟨rfl, hrange, hlock⟩ hlen (recorded_none []) recorded_fresh warmClock clock
  have hsnap := Pass.offers fresh_offers htimed
  rw [map_fst_stamped, List.nil_append] at hsnap
  refine ⟨warm, timed, ?_, hsnap, hoffered.symm, hbook.symm, hrec.counted hsome, ?_, ?_⟩
  · rw [bench, hwarm, htimed]
    rfl
  · intro cal hcal
    exact ⟨hcal.mhz, fun husable => hrec.timed hsome hlen husable⟩
  intro hnew warmClock' clock'
  have hfresh : InStep ({} : OrderBook poolCapacity windowSize) {} msgs :=
    ⟨hrange, hnew, [], [], fresh_lockstep⟩
  obtain ⟨p, warm', hp, hwarm', ⟨-, -, sb, sa, hlock'⟩, hoffered', -⟩ := runPass_swapped hvalid
    hfresh hlen recorded_fresh (recorded_none []) clock warmClock'
  obtain ⟨q, timed', hq, htimed', ⟨-, -, sb', sa', hlock''⟩, hoffered'', -, hsome', -, hrec'⟩ :=
    runPass_swapped hvalid hfresh hlen recorded_fresh recorded_fresh clock clock'
  obtain rfl := Except.ok.inj (hp.symm.trans htimed)
  obtain rfl := Except.ok.inj (hq.symm.trans htimed)
  refine ⟨warm', timed', ?_, hoffered', hoffered'', ?_, ?_, hrec'.counted hsome', ?_⟩
  · rw [bench, hwarm', htimed']
    rfl
  · exact congrArg Engine.fills hlock'.sim.engine.symm
  · exact congrArg Engine.fills hlock''.sim.engine.symm
  · intro cal husable
    exact hrec'.timed hsome' hlen husable

/-- An ask, a bid that takes part of it, and the cancel of the rest, with stamps that ascend and a
stamp clock of 3 GHz that is calibrated with two readings of the clock. -/
theorem bench_measures_three_messages :
    ∃ warm timed, bench (ladderBook 4 64) [⟨.addOrder, .sell, 1, 100, 5, 0⟩,
        ⟨.addOrder, .buy, 2, 101, 3, 1⟩, ⟨.cancelOrder, .sell, 1, 0, 0, 2⟩] (fun _ => ⟨0, 9, 2, 1⟩)
        (fun _ => ⟨10, 15, 18, 20⟩) = .ok (warm, timed) ∧ timed.offered.length = 3 ∧
      warm.book = timed.book ∧
      (∃ h rows, timed.hist = some h ∧ h.rows ⟨600000000, 200000000⟩ = some rows ∧
        rows.total.count.toNat = 3 ∧ rows.Within) ∧
      ∃ warm' timed', bench (mapBook 4) [⟨.addOrder, .sell, 1, 100, 5, 0⟩,
          ⟨.addOrder, .buy, 2, 101, 3, 1⟩, ⟨.cancelOrder, .sell, 1, 0, 0, 2⟩]
          (fun _ => ⟨0, 9, 2, 1⟩) (fun _ => ⟨10, 35, 3, 40⟩) = .ok (warm', timed') ∧
        timed'.offered = timed.offered := by
  obtain ⟨warm, timed, hrun, hoffers, -, hbook, -, hcal, hmap⟩ := @bench_measures 4 64
    ⟨⟨6, rfl⟩, by decide⟩ [⟨.addOrder, .sell, 1, 100, 5, 0⟩, ⟨.addOrder, .buy, 2, 101, 3, 1⟩,
      ⟨.cancelOrder, .sell, 1, 0, 0, 2⟩] (by decide) (by decide) (fun _ => ⟨0, 9, 2, 1⟩)
    (fun _ => ⟨10, 15, 18, 20⟩)
  have hmeasured : StampCalibration.Measured ⟨600000000, 200000000⟩ :=
    ⟨0, 0, 600000000, [100000000, 200000000], rfl⟩
  have hascending : StageStamps.Ascending ⟨10, 15, 18, 20⟩ := by decide +kernel
  obtain ⟨h, rows, hh, hrows, hok, hwithin⟩ :=
    (hcal _ hmeasured).2 (by simp [StampCalibration.Usable])
  obtain ⟨warm', timed', hrun', -, htimed', -⟩ := hmap (by decide +kernel) (fun _ => ⟨0, 9, 2, 1⟩)
    (fun _ => ⟨10, 35, 3, 40⟩)
  exact ⟨warm, timed, hrun, hoffers.length, hbook,
    ⟨h, rows, hh, hrows, hok.counts _ (by simp), hwithin fun _ => hascending⟩, warm', timed',
    hrun', htimed'⟩

/-! ## The loop of the listener -/

namespace ListenLoop

/-- The messages of the frames. -/
def messages (frames : List StampedFrame) : List FeedMessage :=
  (frames.map StampedFrame.frame).filterMap messageOf

/-- The messages of more frames. -/
theorem messages_append (fs gs : List StampedFrame) :
    messages (fs ++ gs) = messages fs ++ messages gs := by
  rw [messages, messages, messages, List.map_append, List.filterMap_append]

/-- What the handler measures of the frames of a batch that has begun at `start`, or begins with
them if `start` is zero: from the start of the batch, and of the frame alone. -/
def times : UInt64 → List StampedFrame → List (UInt64 × UInt64)
  | _, [] => []
  | start, f :: fs =>
      let start := if start = 0 then f.t0 else start
      if (messageOf f.frame).isSome then (f.t1 - start, f.t1 - f.t0) :: times start fs
      else times start fs

/-- The stamps of a batch follow one another. -/
structure Ascending (batch : List StampedFrame) : Prop where
  frames : ∀ f ∈ batch, f.t0 ≤ f.t1
  order : batch.Pairwise fun f g => f.t1 ≤ g.t0

instance {batch : List StampedFrame} : Decidable (Ascending batch) :=
  decidable_of_iff ((∀ f ∈ batch, f.t0 ≤ f.t1) ∧ batch.Pairwise fun f g => f.t1 ≤ g.t0)
    ⟨fun ⟨h, h'⟩ => ⟨h, h'⟩, fun ⟨h, h'⟩ => ⟨h, h'⟩⟩

/-- The time of a frame is part of the time since the start of its batch. -/
theorem Ascending.times_le {batch : List StampedFrame} (h : Ascending batch) {start : UInt64}
    (hstart : ∀ f ∈ batch, start ≤ f.t0) : ∀ t ∈ times start batch, t.2 ≤ t.1 := by
  induction batch generalizing start with
  | nil =>
      intro t ht
      cases ht
  | cons f fs ih =>
      obtain ⟨hframes, horder⟩ := h
      obtain ⟨hafter, horder⟩ := List.pairwise_cons.mp horder
      rw [List.forall_mem_cons] at hframes hstart
      rw [times]
      -- a batch starts at its first frame, and also if the stamp of that is zero
      have hbegun : (if start = 0 then f.t0 else start) ≤ f.t0 := by
        split
        · exact UInt64.le_refl _
        · exact hstart.1
      generalize (if start = 0 then f.t0 else start) = begun at hbegun
      have hrest : ∀ g ∈ fs, begun ≤ g.t0 := fun g hg =>
        UInt64.le_trans hbegun (UInt64.le_trans hframes.1 (hafter g hg))
      have htail := ih ⟨hframes.2, horder⟩ hrest
      split
      · refine List.forall_mem_cons.mpr ⟨?_, htail⟩
        exact span_le hbegun hframes.1 (UInt64.le_refl _)
      · exact htail

/-- The loop after the frames, with what it has measured. -/
structure Ok (frames : List StampedFrame) (measured : List (UInt64 × UInt64))
    (l : ListenLoop poolCapacity windowSize) : Prop where
  offers : Offers (messages frames) l.book l.sig l.offered
  lock : ∃ mb sb sa, Lockstep l.book mb sb sa
  count : measured.length = (messages frames).length
  latRx : Records l.latRx (measured.map Prod.fst)
  latFrame : Records l.latFrame (measured.map Prod.snd)

/-- Before the first frame. -/
theorem fresh_ok : Ok [] [] ({} : ListenLoop poolCapacity windowSize) :=
  ⟨fresh_offers, ⟨{}, [], [], fresh_lockstep⟩, rfl, LatencyHistogram.fresh_records,
    LatencyHistogram.fresh_records⟩

variable {l : ListenLoop poolCapacity windowSize} {done : List StampedFrame}
  {measured : List (UInt64 × UInt64)}

/-- The handler measures the frames that it takes a message out of. -/
theorem Ok.onFrame (hvalid : ValidWindow windowSize) (h : Ok done measured l) {f : StampedFrame}
    (hrange : PricesInRange windowSize (messages [f]))
    (hlen : (messages (done ++ [f])).length < 2 ^ 64) (fs : List StampedFrame) :
    ∃ l' more, l.onFrame f = .ok l' ∧ Ok (done ++ [f]) (measured ++ more) l' ∧
      times l.batchStart (f :: fs) = more ++ times l'.batchStart fs := by
  have hmessages := messages_append done [f]
  unfold ListenLoop.onFrame
  rw [times]
  dsimp only
  generalize (if l.batchStart = 0 then f.t0 else l.batchStart) = start
  cases hmsg : messageOf f.frame with
  | none =>
      have hnone : messages [f] = [] := by
        rw [messages, List.map_singleton, List.filterMap_cons, hmsg]
        rfl
      rw [hnone, List.append_nil] at hmessages
      refine ⟨_, [], rfl, ⟨hmessages ▸ h.offers, h.lock, ?_, ?_, ?_⟩, rfl⟩
      · rw [List.append_nil, hmessages]
        exact h.count
      · rw [List.append_nil]
        exact h.latRx
      · rw [List.append_nil]
        exact h.latFrame
  | some msg =>
      have hsome : messages [f] = [msg] := by
        rw [messages, List.map_singleton, List.filterMap_cons, hmsg]
        rfl
      rw [hsome] at hmessages hrange
      rw [hmessages, List.length_append, List.length_singleton, ← h.count] at hlen
      obtain ⟨mb, sb, sa, hlock⟩ := h.lock
      obtain ⟨b, mb', sb', sa', hb, -, hlock'⟩ := applyMessage_refines hvalid hlock
        (hrange msg List.mem_cons_self)
      obtain ⟨sig, hsig, -⟩ := exists_computeSignals b.topLevels h.offers.sigLength
      have hmap : ∀ g : UInt64 × UInt64 → UInt64, (measured.map g).length + 1 < 2 ^ 64 := by
        intro g
        rwa [List.length_map]
      obtain ⟨rx, hrx, hrrx⟩ := h.latRx.record (hmap _) (f.t1 - start)
      obtain ⟨frame, hframe, hrframe⟩ := h.latFrame.record (hmap _) (f.t1 - f.t0)
      refine ⟨⟨start, b, sig, l.offered ++ [sig], rx, frame⟩, [(f.t1 - start, f.t1 - f.t0)], ?_,
        ⟨?_, ⟨mb', sb', sa', hlock'⟩, ?_, ?_, ?_⟩, rfl⟩
      · simp only [Listener.handleMessage, hb, hsig, hrx, hframe, ok_bind, pure_eq_ok]
      · rw [hmessages]
        exact h.offers.handle hb hsig
      · rw [hmessages, List.length_append, List.length_append, h.count]
        rfl
      · rwa [List.map_append]
      · rwa [List.map_append]

/-- The frames that are left of a batch. -/
theorem Ok.batch (hvalid : ValidWindow windowSize) {fs : List StampedFrame} :
    ∀ {done : List StampedFrame} {measured : List (UInt64 × UInt64)}
      {l : ListenLoop poolCapacity windowSize}, Ok done measured l →
      PricesInRange windowSize (messages fs) → (messages (done ++ fs)).length < 2 ^ 64 →
      ∃ l', fs.foldlM ListenLoop.onFrame l = .ok l' ∧
        Ok (done ++ fs) (measured ++ times l.batchStart fs) l' := by
  induction fs with
  | nil =>
      intro done measured l h _ _
      refine ⟨l, rfl, ?_⟩
      rwa [List.append_nil, times, List.append_nil]
  | cons f fs ih =>
      intro done measured l h hrange hlen
      have hmessages : messages (f :: fs) = messages [f] ++ messages fs := messages_append [f] fs
      rw [hmessages] at hrange
      have hsplit : done ++ f :: fs = (done ++ [f]) ++ fs := by
        rw [List.append_assoc, List.singleton_append]
      rw [hsplit] at hlen ⊢
      have hfirst : (messages (done ++ [f])).length < 2 ^ 64 := by
        rw [messages_append, List.length_append] at hlen
        omega
      obtain ⟨l₁, more, hrun, hok, htimes⟩ := h.onFrame hvalid
        (fun msg hmsg => hrange msg (List.mem_append_left _ hmsg)) hfirst fs
      obtain ⟨l', hrest, hok'⟩ := ih hok
        (fun msg hmsg => hrange msg (List.mem_append_right _ hmsg)) hlen
      refine ⟨l', ?_, ?_⟩
      · rw [List.foldlM_cons, hrun]
        exact hrest
      · rwa [htimes, ← List.append_assoc]

/-- The batches one after the other. -/
theorem Ok.run (hvalid : ValidWindow windowSize) {batches : List (List StampedFrame)} :
    ∀ {done : List StampedFrame} {measured : List (UInt64 × UInt64)}
      {l : ListenLoop poolCapacity windowSize}, Ok done measured l →
      PricesInRange windowSize (messages batches.flatten) →
      (messages (done ++ batches.flatten)).length < 2 ^ 64 →
      ∃ l', l.run batches = .ok l' ∧
        Ok (done ++ batches.flatten) (measured ++ batches.flatMap (times 0)) l' := by
  induction batches with
  | nil =>
      intro done measured l h _ _
      refine ⟨l, rfl, ?_⟩
      rwa [List.flatten_nil, List.flatMap_nil, List.append_nil, List.append_nil]
  | cons batch batches ih =>
      intro done measured l h hrange hlen
      rw [List.flatten_cons, messages_append] at hrange
      rw [List.flatten_cons, ← List.append_assoc] at hlen ⊢
      rw [List.flatMap_cons, ← List.append_assoc]
      have hfirst : (messages (done ++ batch)).length < 2 ^ 64 := by
        rw [messages_append, List.length_append] at hlen
        omega
      have hstart : Ok done measured { l with batchStart := 0 } :=
        ⟨h.offers, h.lock, h.count, h.latRx, h.latFrame⟩
      obtain ⟨l₁, hrun, hok⟩ := hstart.batch hvalid
        (fun msg hmsg => hrange msg (List.mem_append_left _ hmsg)) hfirst
      obtain ⟨l', hrest, hok'⟩ := ih hok
        (fun msg hmsg => hrange msg (List.mem_append_right _ hmsg)) hlen
      refine ⟨l', ?_, hok'⟩
      rw [ListenLoop.run, List.foldlM_cons, ListenLoop.poll, hrun]
      exact hrest

end ListenLoop

/-- The loop of the listener goes through the states of the messages, however the frames are cut
into batches and whatever the clock reads: it offers the snapshot after each message, its report is
that of the frames in a row, and each message is measured once. The rows that are printed with a
usable calibration ascend. If the stamps ascend within each batch, the row from the start of the
batch is not below that of the frames alone, also if a batch begins at stamp zero. -/
theorem listen_measures (hvalid : ValidWindow windowSize) (batches : List (List StampedFrame))
    (hrange : PricesInRange windowSize (ListenLoop.messages batches.flatten))
    (hlen : (ListenLoop.messages batches.flatten).length < 2 ^ 64) :
    ∃ l, ListenLoop.run ({} : ListenLoop poolCapacity windowSize) batches = .ok l ∧
      Offers (ListenLoop.messages batches.flatten) l.book l.sig l.offered ∧
      runXdpListen poolCapacity windowSize (batches.flatten.map StampedFrame.frame) =
        report l.book ∧
      l.latRx.count.toNat = (ListenLoop.messages batches.flatten).length ∧
      l.latFrame.count = l.latRx.count ∧
      ∀ cal : StampCalibration, cal.Measured → (∃ mhz, cal.mhz = some mhz) ∧
        (cal.Usable →
          ∃ rx frame, latencyRow l.latRx cal = some rx ∧ latencyRow l.latFrame cal = some frame ∧
            rx.count = l.latRx.count ∧ frame.count = l.latFrame.count ∧
            rx.Ascending ∧ frame.Ascending ∧
            ((∀ batch ∈ batches, ListenLoop.Ascending batch) → frame.Below rx)) := by
  have hfresh : ListenLoop.Ok [] [] ({} : ListenLoop poolCapacity windowSize) :=
    ListenLoop.fresh_ok
  obtain ⟨l, hrun, hok⟩ := hfresh.run hvalid hrange hlen
  rw [List.nil_append, List.nil_append] at hok
  have hmap : ∀ g : UInt64 × UInt64 → UInt64,
      ((batches.flatMap (ListenLoop.times 0)).map g).length < 2 ^ 64 := by
    intro g
    rw [List.length_map, hok.count]
    exact hlen
  refine ⟨l, hrun, hok.offers, ?_, ?_, ?_, fun cal hcal => ⟨hcal.mhz, fun husable => ?_⟩⟩
  · rw [runXdpListen_eq]
    exact congrArg (· >>= report) hok.offers.book
  · refine hok.latRx.total.trans ?_
    rw [List.length_map, hok.count]
  · refine UInt64.toNat_inj.mp (hok.latFrame.total.trans (Eq.trans ?_ hok.latRx.total.symm))
    rw [List.length_map, List.length_map]
  obtain ⟨rx, hrx, hofrx⟩ := hok.latRx.row (hmap _) husable
  obtain ⟨frame, hframe, hofframe⟩ := hok.latFrame.row (hmap _) husable
  refine ⟨rx, frame, hrx, hframe, hofrx.count, hofframe.count,
    hok.latRx.row_ascending (hmap _) husable hofrx,
    hok.latFrame.row_ascending (hmap _) husable hofframe, fun hbatches => ?_⟩
  refine hok.latFrame.row_below hok.latRx (hmap _) ?_ husable hofframe hofrx
  refine List.forall₂_map_left_iff.mpr (List.forall₂_map_right_iff.mpr ?_)
  refine List.forall₂_same.mpr fun t ht => ?_
  obtain ⟨batch, hbatch, ht⟩ := List.mem_flatMap.mp ht
  exact (hbatches batch hbatch).times_le (fun _ _ => UInt64.zero_le) t ht

/-- A batch that begins at stamp zero, with a frame that carries no message, and a second batch with
an id that rests. -/
theorem listen_measures_two_batches :
    ∃ l, ListenLoop.run ({} : ListenLoop 4 64)
        [[⟨feedHeader ++ feedRecord.bytes, 0, 7⟩, ⟨feedHeader, 8, 8⟩],
          [⟨feedHeader ++ feedRecord.bytes, 20, 26⟩]] = .ok l ∧ l.offered.length = 2 ∧
      l.latRx.count.toNat = 2 ∧
      ∃ rx frame, latencyRow l.latRx ⟨600000000, 200000000⟩ = some rx ∧
        latencyRow l.latFrame ⟨600000000, 200000000⟩ = some frame ∧ frame.Below rx := by
  obtain ⟨l, hrun, hoffers, -, hcount, -, hcal⟩ :=
    @listen_measures 4 64 ⟨⟨6, rfl⟩, by decide⟩
      [[⟨feedHeader ++ feedRecord.bytes, 0, 7⟩, ⟨feedHeader, 8, 8⟩],
        [⟨feedHeader ++ feedRecord.bytes, 20, 26⟩]] (by decide +kernel) (by decide +kernel)
  have hmeasured : StampCalibration.Measured ⟨600000000, 200000000⟩ :=
    ⟨0, 0, 600000000, [100000000, 200000000], rfl⟩
  obtain ⟨rx, frame, hrx, hframe, -, -, -, -, hbelow⟩ :=
    (hcal _ hmeasured).2 (by simp [StampCalibration.Usable])
  exact ⟨l, hrun, hoffers.length, hcount, rx, frame, hrx, hframe, hbelow (by decide +kernel)⟩

end LimitOrderBook
