import LimitOrderBook.Listen.Report

/-!
# What the loopback test shows

The test compares texts: the lines on the book that `replay` prints with those that `xdp-listen`
prints among others. `loopback_passes_iff` says which values have to agree for it to pass. Each
value can be read off its line, the smallest 64-bit integer included (`printScaled_inj`), and the
words at the beginning of the lines tell the lines on the book from all others.
-/

namespace LimitOrderBook

open DecimalText

/-! ## Numbers -/

/-- The magnitude that `print_scaled` computes. -/
theorem toNat_magnitude {v : Int} (hv : FitsInt64 v) :
    (if v < 0 then 0 - UInt64.ofInt v else UInt64.ofInt v).toNat = v.natAbs := by
  unfold FitsInt64 int64Min int64Max at hv
  have hword : (UInt64.ofInt v).toNat = (v % 2 ^ 64).toNat := by
    rw [UInt64.ofInt, UInt64.toNat_ofNat']
    omega
  split
  · rw [UInt64.toNat_sub, hword]
    simp
    omega
  · rw [hword]
    omega

/-- `print_scaled` prints the sign and the magnitude. -/
theorem printScaled_eq {v : Int} (hv : FitsInt64 v) :
    printScaled v = signed (v < 0) (ofUnits 6 v.natAbs) := by
  have hscale : (UInt64.ofInt kSignalScale).toNat = 10 ^ 6 := by decide
  unfold printScaled
  dsimp only
  rw [UInt64.toNat_div, UInt64.toNat_mod, toNat_magnitude hv, hscale]
  unfold signed ofUnits
  by_cases hneg : v < 0
  · rw [if_pos hneg, if_pos (decide_eq_true hneg)]
    rfl
  · rw [if_neg hneg, if_neg (by simpa using hneg)]
    rfl

/-- A scaled value can be read off its text. -/
theorem printScaled_inj {v w : Int} (hv : FitsInt64 v) (hw : FitsInt64 w) :
    printScaled v = printScaled w ↔ v = w := by
  rw [printScaled_eq hv, printScaled_eq hw, signed_inj (notMem_ofUnits (by decide) (by decide))
    (notMem_ofUnits (by decide) (by decide)), ofUnits_inj, decide_eq_decide]
  omega

/-- A price or its absence can be read off the text. -/
theorem printPrice_inj {p q : Option Price} : printPrice p = printPrice q ↔ p = q := by
  have hnone : ∀ p : Price, ofInt p ≠ printPrice none := by
    intro p h
    have hmem : '(' ∈ ofInt p := by
      rw [h]
      exact List.mem_cons_self
    exact notMem_ofInt (by decide) (by decide) hmem
  cases p with
  | none =>
      cases q with
      | none => exact iff_of_true rfl rfl
      | some q => exact iff_of_false (fun h => hnone q h.symm) (fun h => by cases h)
  | some p =>
      cases q with
      | none => exact iff_of_false (hnone p) (fun h => by cases h)
      | some q => exact ofInt_inj.trans Option.some_inj.symm

/-! ## Signals -/

/-- Signals whose texts are exact. -/
structure BookSignals.Printable (s : BookSignals) : Prop where
  mid : FitsInt64 s.midScaled
  microprice : FitsInt64 s.microprice
  imbalance : ∀ v ∈ s.imbalance, FitsInt64 v
  length : s.imbalance.length = kNumImbalanceDepths

/-- Zero is a 64-bit integer. -/
theorem fitsInt64_zero : FitsInt64 0 := by decide

/-- The signals of a book. -/
theorem printable_of_computeSignals {topLevels : Side → Nat → List LevelQty} {s : BookSignals}
    (h : computeSignals topLevels {} = .ok s) : s.Printable := by
  rw [computeSignals_eq topLevels rfl] at h
  obtain rfl := Except.ok.inj h
  refine ⟨?_, ?_, ?_, List.length_map _⟩
  · unfold BookSignals.midScaled
    split
    · exact fitsInt64_wrap64 _
    · exact fitsInt64_zero
  · unfold setMicroprice
    dsimp only
    split
    · exact fitsInt64_wrap64 _
    · exact fitsInt64_zero
  · intro v hv
    obtain ⟨k, -, rfl⟩ := List.mem_map.mp hv
    unfold imbalanceAt imbalanceScaled
    dsimp only
    split
    · exact fitsInt64_zero
    · exact fitsInt64_wrap64 _

/-- A value of a two-sided book, or the words for its absence. -/
theorem quoted_inj {two two' : Bool} {v w : Int} (hv : FitsInt64 v) (hw : FitsInt64 w) :
    (if two then printScaled v else "(n/a)".toList) =
        (if two' then printScaled w else "(n/a)".toList) ↔
      (if two then some v else none) = if two' then some w else none := by
  have hnone : ∀ {v : Int}, FitsInt64 v → printScaled v ≠ "(n/a)".toList := by
    intro v hv h
    have hmem : '(' ∈ printScaled v := by
      rw [h]
      exact List.mem_cons_self
    rw [printScaled_eq hv] at hmem
    exact notMem_signed (by decide) (notMem_ofUnits (by decide) (by decide)) hmem
  cases two with
  | false =>
      cases two' with
      | false => exact iff_of_true rfl rfl
      | true => exact iff_of_false (fun h => hnone hw h.symm) (fun h => by cases h)
  | true =>
      cases two' with
      | false => exact iff_of_false (hnone hv) (fun h => by cases h)
      | true => exact (printScaled_inj hv hw).trans Option.some_inj.symm

/-- The imbalances can be read off their lines. -/
theorem imbalanceLines_inj {depths : List Nat} : ∀ {vs ws : List Int},
    vs.length = depths.length → ws.length = depths.length → (∀ v ∈ vs, FitsInt64 v) →
    (∀ w ∈ ws, FitsInt64 w) →
    ((depths.zip vs).map (fun d => "imbalance@".toList ++ ofNat d.1 ++ ": ".toList ++
          printScaled d.2) =
        (depths.zip ws).map (fun d => "imbalance@".toList ++ ofNat d.1 ++ ": ".toList ++
          printScaled d.2) ↔ vs = ws) := by
  induction depths with
  | nil =>
      intro vs ws hvs hws _ _
      rw [List.eq_nil_of_length_eq_zero hvs, List.eq_nil_of_length_eq_zero hws]
      exact iff_of_true rfl rfl
  | cons d depths ih =>
      intro vs ws hvs hws hfit hfit'
      obtain ⟨v, vs, rfl⟩ := List.exists_cons_of_length_eq_add_one hvs
      obtain ⟨w, ws, rfl⟩ := List.exists_cons_of_length_eq_add_one hws
      rw [List.forall_mem_cons] at hfit hfit'
      rw [List.zip_cons_cons, List.zip_cons_cons, List.map_cons, List.map_cons, List.cons.injEq,
        List.cons.injEq, List.append_right_inj, printScaled_inj hfit.1 hfit'.1,
        ih (Nat.succ.inj hvs) (Nat.succ.inj hws) hfit.2 hfit'.2]

/-! ## The lines on the book -/

/-- What the lines on a book show. Mid and microprice are missing unless both sides have orders, and
the traded quantity is the 64-bit one. -/
structure Shown where
  fillCount : UInt64
  tradedQty : Quantity
  bestBid : Option Price
  bestAsk : Option Price
  totalRestingQty : Quantity
  stats : BookStats
  mid : Option Int
  microprice : Option Int
  imbalance : List Int
  deriving DecidableEq

/-- What the lines on a report show. -/
def Report.shown (r : Report) : Shown where
  fillCount := fillCount r.fills
  tradedQty := gTradedQty r.fills
  bestBid := r.bestBid
  bestAsk := r.bestAsk
  totalRestingQty := r.totalRestingQty
  stats := r.stats
  mid := if r.signals.twoSided then some r.signals.midScaled else none
  microprice := if r.signals.twoSided then some r.signals.microprice else none
  imbalance := r.signals.imbalance

section Lines

variable {r r' : Report}

/-- The signals can be read off their lines. -/
theorem printSignals_inj {s s' : BookSignals} (hs : s.Printable) (hs' : s'.Printable) :
    printSignals s = printSignals s' ↔
      (if s.twoSided then some s.midScaled else none) =
          (if s'.twoSided then some s'.midScaled else none) ∧
        (if s.twoSided then some s.microprice else none) =
          (if s'.twoSided then some s'.microprice else none) ∧ s.imbalance = s'.imbalance := by
  unfold printSignals
  dsimp only
  simp only [List.cons_append, List.nil_append, List.cons.injEq, List.append_right_inj]
  rw [quoted_inj hs.mid hs'.mid, quoted_inj hs.microprice hs'.microprice,
    imbalanceLines_inj hs.length hs'.length hs.imbalance hs'.imbalance]

/-- The first line on a book. -/
theorem fillsLine_inj {m n : UInt64} {p q : Quantity} :
    "fills: ".toList ++ ofNat m.toNat ++ ", traded qty: ".toList ++ ofInt p =
        "fills: ".toList ++ ofNat n.toNat ++ ", traded qty: ".toList ++ ofInt q ↔
      m = n ∧ p = q := by
  simp only [List.append_assoc, List.append_right_inj]
  refine (ofNat_word_inj (by decide)).trans ?_
  rw [UInt64.toNat_inj, ofInt_inj]

/-- The line on the refusals. -/
theorem rejectedLine_inj {s t : BookStats} :
    "rejected: pool_exhausted=".toList ++ ofNat s.poolExhausted.toNat ++ " duplicate_id=".toList ++
          ofNat s.duplicateId.toNat =
        "rejected: pool_exhausted=".toList ++ ofNat t.poolExhausted.toNat ++
          " duplicate_id=".toList ++ ofNat t.duplicateId.toNat ↔ s = t := by
  simp only [List.append_assoc, List.append_right_inj]
  refine (ofNat_word_inj (by decide)).trans ?_
  rw [UInt64.toNat_inj, ofNat_inj, UInt64.toNat_inj]
  exact (BookStats.mk.injEq _ _ _ _ ▸ Iff.rfl)

/-- The lines on two reports are the same if and only if they show the same. -/
theorem reportLines_inj (hr : r.signals.Printable) (hr' : r'.signals.Printable)
    (hfits : FitsInt64 r.totalRestingQty) (hfits' : FitsInt64 r'.totalRestingQty) :
    reportLines r = reportLines r' ↔ r.shown = r'.shown := by
  unfold reportLines Report.shown
  rw [Shown.mk.injEq]
  simp only [List.cons_append, List.nil_append, List.cons.injEq]
  rw [fillsLine_inj, rejectedLine_inj, List.append_right_inj, List.append_right_inj,
    List.append_right_inj, printPrice_inj, printPrice_inj, ofInt_inj, wrap64_eq_iff.mpr hfits,
    wrap64_eq_iff.mpr hfits', printSignals_inj hr hr']
  tauto

end Lines

/-! ## The selected lines -/

section Select

/-- Every line on a book begins with one of the words. -/
theorem exists_bookWord (r : Report) :
    ∀ line ∈ reportLines r, ∃ word ∈ bookWords, word.toList <+: line := by
  have himbalance : ∀ line ∈ (kImbalanceDepths.zip r.signals.imbalance).map (fun d =>
      "imbalance@".toList ++ ofNat d.1 ++ ": ".toList ++ printScaled d.2),
      ∃ word ∈ bookWords, word.toList <+: line := by
    intro line hline
    obtain ⟨d, -, rfl⟩ := List.mem_map.mp hline
    refine ⟨"imbalance@", by simp [bookWords], ?_⟩
    simp only [List.append_assoc]
    exact List.prefix_append _ _
  unfold reportLines printSignals
  simp only [List.cons_append, List.nil_append, List.forall_mem_cons]
  refine ⟨⟨"fills", ?_⟩, ⟨"best bid", ?_⟩, ⟨"best ask", ?_⟩, ⟨"resting qty", ?_⟩, ⟨"rejected", ?_⟩,
    ⟨"mid", ?_⟩, ⟨"microprice", ?_⟩, himbalance⟩ <;>
  exact ⟨by simp [bookWords], _, rfl⟩

/-- A line that begins with one of the words is selected. -/
theorem bookLine_of_word {line : Line} (h : ∃ word ∈ bookWords, word.toList <+: line) :
    bookLine line = true := by
  obtain ⟨word, hword, hprefix⟩ := h
  exact List.any_eq_true.mpr ⟨word, hword, List.isPrefixOf_iff_prefix.mpr hprefix⟩

/-- The lines on the book are selected. -/
theorem filter_reportLines (r : Report) : (reportLines r).filter bookLine = reportLines r :=
  List.filter_eq_self.mpr fun line hline => bookLine_of_word (exists_bookWord r line hline)

/-- The words of the other lines, except those on the kernel and on the publisher. -/
def otherWords : List String :=
  ["replayed ", "xdp-listen: bound to ", "latency on this machine (stamp clock ", "stage",
    "rx->pub", "frame"]

/-- The words of the lines on the kernel and on the publisher. -/
def testedWords : List String := ["xdp stats: rx_dropped=", "md: published="]

/-- The lines on the book begin with other words than the others. -/
theorem bookWords_apart : ∀ word ∈ bookWords, ∀ other ∈ testedWords ++ otherWords,
    Apart word.toList other.toList := by
  decide +kernel

/-- The lines on the kernel and on the publisher begin with other words than the others. -/
theorem testedWords_apart : ∀ word ∈ testedWords, ∀ other ∈ bookWords ++ otherWords,
    Apart word.toList other.toList := by
  decide +kernel

/-- A line that begins with another word is not selected. -/
theorem bookLine_of_other {other : String} (hother : other ∈ testedWords ++ otherWords)
    (rest : Line) : bookLine (other.toList ++ rest) = false := by
  refine List.any_eq_false.mpr fun word hword => ?_
  have hapart := (bookWords_apart word hword other hother).isPrefixOf_eq_false [] rest
  rw [List.append_nil] at hapart
  rw [hapart]
  exact Bool.false_ne_true

/-- What is selected of the output of `replay`. -/
theorem filter_replayOutput (messages : Nat) (path : Line) (r : Report) :
    (replayOutput messages path r).filter bookLine = reportLines r := by
  have hfirst := fun rest => @bookLine_of_other "replayed " (by decide) rest
  unfold replayOutput
  simp only [List.append_assoc]
  rw [List.filter_cons_of_neg, filter_reportLines]
  rw [hfirst]
  exact Bool.false_ne_true

/-- The lines of the output of `xdp-listen` that are left if those that begin with one of the other
words are not selected. -/
theorem filter_listenOutput {p : Line → Bool} (ifname bpfObj : Line) (queueId : Nat) (e : ListenEnd)
    (hother : ∀ word ∈ otherWords, ∀ rest, p (word.toList ++ rest) = false) :
    (listenOutput ifname bpfObj queueId e).filter p =
      (reportLines e.report).filter p ++ (e.xdpStats.map xdpLine).toList.filter p ++
        [mdLine e].filter p := by
  simp only [otherWords, List.forall_mem_cons] at hother
  obtain ⟨-, hfirst, hclock, hstage, hrx, hframe, -⟩ := hother
  have hbound : p (boundLine ifname bpfObj queueId) = false := by
    unfold boundLine
    simp only [List.append_assoc]
    exact hfirst _
  have hrows : ∀ line ∈ [clockLine e.mhz, latencyHeader, latencyLine "rx->pub".toList e.latRx,
      latencyLine "frame".toList e.latFrame], p line = false := by
    unfold clockLine latencyHeader latencyLine List.rightpad
    simp only [List.forall_mem_cons, List.append_assoc]
    exact ⟨hclock _, hstage _, hrx _, hframe _, by simp⟩
  have htail : [clockLine e.mhz, latencyHeader, latencyLine "rx->pub".toList e.latRx,
      latencyLine "frame".toList e.latFrame].filter p = [] := by
    refine List.filter_eq_nil_iff.mpr fun line hline => ?_
    rw [hrows line hline]
    exact Bool.false_ne_true
  have hend : (mdLine e :: [clockLine e.mhz, latencyHeader, latencyLine "rx->pub".toList e.latRx,
      latencyLine "frame".toList e.latFrame]).filter p = [mdLine e].filter p := by
    rw [← List.singleton_append, List.filter_append, htail, List.append_nil]
  unfold listenOutput endLines
  rw [List.filter_cons_of_neg, List.filter_append, List.filter_append, hend, List.append_assoc]
  rw [hbound]
  exact Bool.false_ne_true

/-- The word of the line on the kernel. -/
theorem exists_xdpLine (s : XdpStatistics) :
    ∃ rest, xdpLine s = "xdp stats: rx_dropped=".toList ++ rest := by
  unfold xdpLine
  simp only [List.append_assoc]
  exact ⟨_, rfl⟩

/-- The word of the line on the publisher. -/
theorem exists_mdLine (e : ListenEnd) : ∃ rest, mdLine e = "md: published=".toList ++ rest := by
  unfold mdLine
  simp only [List.append_assoc]
  exact ⟨_, rfl⟩

/-- The lines on the book are selected of the output of `xdp-listen`. -/
theorem bookLines_listenOutput (ifname bpfObj : Line) (queueId : Nat) (e : ListenEnd) :
    (listenOutput ifname bpfObj queueId e).filter bookLine = reportLines e.report := by
  have hstats : (e.xdpStats.map xdpLine).toList.filter bookLine = [] := by
    refine List.filter_eq_nil_iff.mpr fun line hline => ?_
    obtain ⟨s, -, rfl⟩ := Option.map_eq_some_iff.mp (Option.mem_toList.mp hline)
    obtain ⟨rest, hrest⟩ := exists_xdpLine s
    rw [hrest, bookLine_of_other (by decide) rest]
    exact Bool.false_ne_true
  have hmd : [mdLine e].filter bookLine = [] := by
    obtain ⟨rest, hrest⟩ := exists_mdLine e
    rw [hrest, List.filter_cons_of_neg, List.filter_nil]
    rw [bookLine_of_other (by decide) rest]
    exact Bool.false_ne_true
  rw [filter_listenOutput ifname bpfObj queueId e fun word hword rest =>
      bookLine_of_other (List.mem_append_right _ hword) rest, filter_reportLines, hstats, hmd,
    List.append_nil, List.append_nil]

/-- A test for lines that begin with a text finds only lines on the kernel or on the publisher if
the text begins with one of their words. -/
theorem any_listenOutput {word : String} (hword : word ∈ testedWords) {text more : Line}
    (htext : text = word.toList ++ more) (ifname bpfObj : Line) (queueId : Nat) (e : ListenEnd) :
    (listenOutput ifname bpfObj queueId e).any text.isPrefixOf = true ↔
      (∃ s, e.xdpStats = some s ∧ text.isPrefixOf (xdpLine s) = true) ∨
        text.isPrefixOf (mdLine e) = true := by
  have hapart : ∀ other ∈ bookWords ++ otherWords, ∀ rest,
      text.isPrefixOf (other.toList ++ rest) = false := by
    intro other hother rest
    rw [htext]
    exact (testedWords_apart word hword other hother).isPrefixOf_eq_false more rest
  have hnone : (reportLines e.report).filter text.isPrefixOf = [] := by
    refine List.filter_eq_nil_iff.mpr fun line hline => ?_
    obtain ⟨other, hother, rest, rfl⟩ := exists_bookWord e.report line hline
    rw [hapart other (List.mem_append_left _ hother) rest]
    exact Bool.false_ne_true
  have hfilter := filter_listenOutput ifname bpfObj queueId e fun other hother rest =>
    hapart other (List.mem_append_right _ hother) rest
  rw [hnone, List.nil_append] at hfilter
  have hmem : ∀ line, (line ∈ listenOutput ifname bpfObj queueId e ∧
      text.isPrefixOf line = true) ↔
        ((∃ s, e.xdpStats = some s ∧ xdpLine s = line) ∨ line = mdLine e) ∧
          text.isPrefixOf line = true := by
    intro line
    rw [← List.mem_filter, hfilter, List.mem_append, List.mem_filter, List.mem_filter,
      List.mem_singleton, Option.mem_toList, Option.map_eq_some_iff, or_and_right]
  rw [List.any_eq_true]
  constructor
  · intro h
    obtain ⟨line, hline⟩ := h
    obtain ⟨⟨s, hs, rfl⟩ | rfl, hp⟩ := (hmem line).mp hline
    · exact Or.inl ⟨s, hs, hp⟩
    · exact Or.inr hp
  · intro h
    rcases h with ⟨s, hs, hp⟩ | hp
    · exact ⟨_, (hmem _).mpr ⟨Or.inl ⟨s, hs, rfl⟩, hp⟩⟩
    · exact ⟨_, (hmem _).mpr ⟨Or.inr rfl, hp⟩⟩

/-- The kernel has dropped nothing. -/
structure XdpStatistics.NothingDropped (s : XdpStatistics) : Prop where
  rxDropped : s.rxDropped = 0
  rxInvalidDescs : s.rxInvalidDescs = 0
  rxRingFull : s.rxRingFull = 0
  rxFillRingEmptyDescs : s.rxFillRingEmptyDescs = 0

/-- The text of a word is zero if and only if the word is. -/
theorem zero_eq_toNat {w : UInt64} : 0 = w.toNat ↔ w = 0 := by
  rw [eq_comm, ← UInt64.toNat_inj]
  rfl

/-- The text of the test, with its numbers. -/
theorem nothingDropped_eq : nothingDropped = "xdp stats: rx_dropped=".toList ++ (ofNat 0 ++
    (" rx_invalid_descs=".toList ++ (ofNat 0 ++ (" rx_ring_full=".toList ++ (ofNat 0 ++
      (" rx_fill_ring_empty_descs=".toList ++ (ofNat 0 ++ (" ".toList ++ [])))))))) := by
  decide +kernel

/-- The line on a kernel that has dropped nothing. -/
theorem nothingDropped_xdpLine (s : XdpStatistics) :
    nothingDropped <+: xdpLine s ↔ s.NothingDropped := by
  have hlast : ∀ rest, ofNat 0 ++ (" ".toList ++ []) <+:
      ofNat s.rxFillRingEmptyDescs.toNat ++ (" tx_invalid_descs=".toList ++ rest) ↔
        s.rxFillRingEmptyDescs = 0 := by
    intro rest
    refine (@ofNat_word_isPrefix _ _ ' ' [] (by decide) [] ("tx_invalid_descs=".toList ++ rest)
      ).trans ?_
    rw [zero_eq_toNat]
    exact and_iff_left List.nil_prefix
  unfold xdpLine
  rw [nothingDropped_eq]
  simp only [List.append_assoc]
  rw [List.prefix_append_right_inj]
  refine (ofNat_word_isPrefix (by decide)).trans ?_
  refine (and_congr zero_eq_toNat ((ofNat_word_isPrefix (by decide)).trans (and_congr zero_eq_toNat
    ((ofNat_word_isPrefix (by decide)).trans (and_congr zero_eq_toNat (hlast _)))))).trans ?_
  constructor
  · intro h
    exact ⟨h.1, h.2.1, h.2.2.1, h.2.2.2⟩
  · intro h
    exact ⟨h.rxDropped, h.rxInvalidDescs, h.rxRingFull, h.rxFillRingEmptyDescs⟩

/-- The two snapshots agree in every field. -/
theorem sameSignals_iff {a b : BookSignals} (ha : a.imbalance.length = kNumImbalanceDepths)
    (hb : b.imbalance.length = kNumImbalanceDepths) : sameSignals a b = true ↔ a = b := by
  have hall : ((List.range kNumImbalanceDepths).all fun d => a.imbalance[d]? = b.imbalance[d]?) =
      true ↔ a.imbalance = b.imbalance := by
    rw [List.all_eq_true]
    refine ⟨fun h => List.ext_getElem? fun d => ?_, fun h d _ => decide_eq_true (by rw [h])⟩
    by_cases hd : d < kNumImbalanceDepths
    · exact of_decide_eq_true (h d (List.mem_range.mpr hd))
    · rw [List.getElem?_eq_none (by omega), List.getElem?_eq_none (by omega)]
  unfold sameSignals
  split
  · next hne =>
      refine iff_of_false Bool.false_ne_true fun h => ?_
      subst h
      simp at hne
  · next heq =>
      rw [hall]
      obtain ⟨bestBid, bestAsk, bidQty, askQty, microprice, imbalance⟩ := a
      obtain ⟨bestBid', bestAsk', bidQty', askQty', microprice', imbalance'⟩ := b
      simp only [not_or, not_not] at heq
      rw [BookSignals.mk.injEq]
      tauto

/-- The text of the test, with its numbers. -/
theorem allReceived_eq (messages : Nat) : allReceived messages = "md: published=".toList ++
    (ofNat messages ++ (" dropped=".toList ++ (ofNat 0 ++ (" consumer_received=".toList ++
      (ofNat messages ++ (" last_snapshot_matches_book=".toList ++ "yes".toList)))))) := by
  have hzero : " dropped=0 consumer_received=".toList =
      " dropped=".toList ++ (ofNat 0 ++ " consumer_received=".toList) := by decide +kernel
  have hyes : " last_snapshot_matches_book=yes".toList =
      " last_snapshot_matches_book=".toList ++ "yes".toList := by decide +kernel
  unfold allReceived
  rw [hzero, hyes]
  simp only [List.append_assoc]

/-- The line on the publisher of a run in which so many snapshots were published and received. -/
theorem allReceived_mdLine (messages : Nat) (e : ListenEnd) :
    allReceived messages <+: mdLine e ↔
      messages = e.published.toNat ∧ e.dropped = 0 ∧ messages = e.mdReceived.toNat ∧
        e.published ≠ 0 ∧ sameSignals e.mdLast e.report.signals = true := by
  have hverdict : "yes".toList <+: (if e.published = 0 then "n/a".toList
      else if sameSignals e.mdLast e.report.signals then "yes".toList else "no".toList) ↔
      e.published ≠ 0 ∧ sameSignals e.mdLast e.report.signals = true := by
    split
    · next hnone => exact iff_of_false (by decide) fun h => h.1 hnone
    · next hsome =>
        split
        · next hsame => exact iff_of_true (List.prefix_refl _) ⟨hsome, hsame⟩
        · next hdiffer => exact iff_of_false (by decide) fun h => hdiffer h.2
  unfold mdLine
  rw [allReceived_eq]
  simp only [List.append_assoc]
  rw [List.prefix_append_right_inj]
  refine (ofNat_word_isPrefix (by decide)).trans (and_congr_right fun _ => ?_)
  refine (ofNat_word_isPrefix (by decide)).trans (and_congr zero_eq_toNat ?_)
  exact (ofNat_word_isPrefix (by decide)).trans (and_congr_right fun _ => hverdict)

/-- The test of the line on the kernel. -/
theorem any_nothingDropped (ifname bpfObj : Line) (queueId : Nat) (e : ListenEnd) :
    (listenOutput ifname bpfObj queueId e).any nothingDropped.isPrefixOf = true ↔
      ∃ s, e.xdpStats = some s ∧ s.NothingDropped := by
  have hmd : nothingDropped.isPrefixOf (mdLine e) = false := by
    obtain ⟨rest, hrest⟩ := exists_mdLine e
    rw [hrest, nothingDropped_eq]
    exact Apart.isPrefixOf_eq_false (by decide) _ _
  refine (any_listenOutput List.mem_cons_self nothingDropped_eq ifname bpfObj queueId e).trans ?_
  refine (or_iff_left (Bool.eq_false_iff.mp hmd)).trans ?_
  simp only [List.isPrefixOf_iff_prefix, nothingDropped_xdpLine]

/-- The test of the line on the publisher. -/
theorem any_allReceived (messages : Nat) (ifname bpfObj : Line) (queueId : Nat) (e : ListenEnd) :
    (listenOutput ifname bpfObj queueId e).any (allReceived messages).isPrefixOf = true ↔
      allReceived messages <+: mdLine e := by
  refine (any_listenOutput (List.mem_cons_of_mem _ List.mem_cons_self) (allReceived_eq messages)
    ifname bpfObj queueId e).trans ?_
  rw [List.isPrefixOf_iff_prefix]
  refine or_iff_right fun h => ?_
  obtain ⟨s, -, hs⟩ := h
  obtain ⟨rest, hrest⟩ := exists_xdpLine s
  rw [hrest, allReceived_eq, Apart.isPrefixOf_eq_false (by decide) _ _] at hs
  cases hs

end Select

/-- The signals of a report can be read off its lines. -/
theorem printable_of_report {poolCapacity windowSize : Nat} {b : OrderBook poolCapacity windowSize}
    {r : Report} (h : report b = .ok r) : r.signals.Printable := by
  obtain ⟨signals, hs, hreport⟩ := bind_eq_ok.mp h
  obtain rfl := Except.ok.inj hreport
  exact printable_of_computeSignals hs

/-- The loopback test passes if and only if both books show the same, the kernel has dropped
nothing, and all of the messages, of which there is at least one, were published and received, the
last snapshot being that of the book. What rests on either book fits in 64 bits. -/
theorem loopback_passes_iff {poolCapacity windowSize poolCapacity' windowSize' : Nat}
    {b : OrderBook poolCapacity windowSize} {b' : OrderBook poolCapacity' windowSize'} {r : Report}
    {e : ListenEnd} (hr : report b = .ok r) (he : report b' = .ok e.report)
    (hfits : FitsInt64 r.totalRestingQty) (hfits' : FitsInt64 e.report.totalRestingQty)
    (hmd : e.mdLast.imbalance.length = kNumImbalanceDepths) (messages loaded : Nat)
    (path ifname bpfObj : Line) (queueId : Nat) :
    loopbackPasses messages (replayOutput loaded path r)
        (listenOutput ifname bpfObj queueId e) = true ↔
      r.shown = e.report.shown ∧ (∃ s, e.xdpStats = some s ∧ s.NothingDropped) ∧
        messages = e.published.toNat ∧ e.dropped = 0 ∧ messages = e.mdReceived.toNat ∧
        0 < messages ∧ e.mdLast = e.report.signals := by
  have hbook := printable_of_report he
  unfold loopbackPasses
  rw [Bool.and_eq_true, Bool.and_eq_true, decide_eq_true_eq, any_nothingDropped, any_allReceived,
    filter_replayOutput, bookLines_listenOutput,
    reportLines_inj (printable_of_report hr) hbook hfits hfits', allReceived_mdLine,
    sameSignals_iff hmd hbook.length, and_assoc]
  refine and_congr_right fun _ => and_congr_right fun _ => and_congr_right fun hpublished => ?_
  refine and_congr_right fun _ => and_congr_right fun _ => and_congr_left fun _ => ?_
  rw [hpublished, Nat.pos_iff_ne_zero, ne_eq, ne_eq, ← UInt64.toNat_inj]
  rfl

/-- An ask, a bid below it and a purchase of a part of the ask. -/
def tradeFeed : List FeedMessage :=
  [⟨.addOrder, .sell, 1, 105, 4, 0⟩, ⟨.addOrder, .buy, 2, 100, 5, 1⟩,
    ⟨.addOrder, .buy, 3, 106, 1, 2⟩]

/-- Both books after a trade, with all snapshots published and received on a kernel that has dropped
nothing. The test fails if one more snapshot was expected. -/
theorem loopback_passes_iff_trade :
    ∃ (b : OrderBook 4 64) (r : Report), ({} : OrderBook 4 64).applyMessages tradeFeed = .ok b ∧
      report b = .ok r ∧ r.fills = [⟨1, 3, 105, 1⟩] ∧
      (r.bestBid, r.bestAsk, r.totalRestingQty) = (some 100, some 105, 8) ∧
      ∀ row, loopbackPasses 3 (replayOutput 3 "a.feed".toList r)
          (listenOutput "veth0".toList "xdp.o".toList 0
            ⟨r, some ⟨0, 0, 0, 0, 0, 0⟩, 3, 0, 3, r.signals, 3000, row, row⟩) = true ∧
        loopbackPasses 4 (replayOutput 3 "a.feed".toList r)
          (listenOutput "veth0".toList "xdp.o".toList 0
            ⟨r, some ⟨0, 0, 0, 0, 0, 0⟩, 3, 0, 3, r.signals, 3000, row, row⟩) = false := by
  have hrun : ((({} : OrderBook 4 64).applyMessages tradeFeed >>= report) >>= fun r =>
      (.ok (r.fills, r.bestBid, r.bestAsk, r.totalRestingQty) :
        Result (List Fill × Option Price × Option Price × Quantity))) =
      .ok ([⟨1, 3, 105, 1⟩], some 100, some 105, 8) := by decide +kernel
  obtain ⟨r, hbook, hview⟩ := bind_eq_ok.mp hrun
  obtain ⟨b, hb, hr⟩ := bind_eq_ok.mp hbook
  obtain ⟨hfills, hrest⟩ := Prod.mk.inj (Except.ok.inj hview)
  have htotal : r.totalRestingQty = 8 := congrArg (fun v => v.2.2) hrest
  have hfits : FitsInt64 r.totalRestingQty := by
    rw [htotal]
    decide
  have hlength := (printable_of_report hr).length
  refine ⟨b, r, hb, hr, hfills, hrest, fun row => ⟨?_, ?_⟩⟩
  · refine (@loopback_passes_iff _ _ _ _ b b r
      ⟨r, some ⟨0, 0, 0, 0, 0, 0⟩, 3, 0, 3, r.signals, 3000, row, row⟩ hr hr hfits hfits hlength _ _
      _ _ _ _).mpr ?_
    exact ⟨rfl, ⟨_, rfl, rfl, rfl, rfl, rfl⟩, rfl, rfl, rfl, by decide, rfl⟩
  · refine Bool.eq_false_iff.mpr fun hpass => ?_
    obtain ⟨-, -, hpublished, -⟩ := (@loopback_passes_iff _ _ _ _ b b r
      ⟨r, some ⟨0, 0, 0, 0, 0, 0⟩, 3, 0, 3, r.signals, 3000, row, row⟩ hr hr hfits hfits hlength _ _
      _ _ _ _).mp hpass
    cases hpublished

end LimitOrderBook
