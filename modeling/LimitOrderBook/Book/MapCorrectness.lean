import LimitOrderBook.Book.RestingBook
import LimitOrderBook.Book.Shelves

/-!
# The map-backed book keeps price-time priority

`MapOk` is the invariant of the map-backed book: each map is made up of shelves, and the pool and
the id map agree with the orders on them. `allocate_add_spec` and `cancelOrder_spec` say that the
operations succeed, keep the invariant, and do to the resting orders what `RestingBook.add` and
`RestingBook.cancel` do.
-/

namespace LimitOrderBook

open PriceLevel

/-- The orders on the shelves, in the order in which they trade. -/
def viewOf (h : Heap) (s : List Shelf) : List Resting := (slots s).map (restingOf h)

/-- Orders that are the same look the same. -/
theorem viewOf_frame {h h' : Heap} {s : List Shelf} (hframe : ∀ o ∈ slots s, h' o = h o) :
    viewOf h' s = viewOf h s :=
  List.map_congr_left fun o ho => by rw [restingOf, hframe o ho, restingOf]

/-! ## The two parts of adding an order -/

section Add

variable {poolCapacity : Nat} {isBid : Bool} {e : Engine poolCapacity} {o : OrderRef}
  {own opp : MapLevels} {so sp : List Shelf}

/-- The first part: the order is matched against the other side. -/
theorem matchSides_spec (hown : SideOk isBid e.heap own so) (hopp : SideOk (!isBid) e.heap opp sp)
    (hok : EngineOk e [o] (slots sp ++ slots so)) :
    ∃ e' opp' sp', MapOrderBook.matchLoop (!isBid) o (Engine.loopBound poolCapacity) e opp =
        .ok (e', opp') ∧
      SideOk isBid e'.heap own so ∧ SideOk (!isBid) e'.heap opp' sp' ∧
      EngineOk e' [o] (slots sp' ++ slots so) ∧
      (∀ t ∈ slots sp', t ∈ slots sp ∧ (e'.heap t).id = (e.heap t).id) ∧
      (∀ t ∈ slots so, e'.heap t = e.heap t) ∧
      e'.fills = e.fills ++ (sideSweep (!isBid) e.heap o (slots sp)).fills ∧
      viewOf e'.heap sp' = (sideSweep (!isBid) e.heap o (slots sp)).rest ∧
      e'.heap o = { e.heap o with quantity := (sideSweep (!isBid) e.heap o (slots sp)).left } := by
  have hlen := hok.length_eq
  rw [List.length_singleton, List.length_append] at hlen
  have hshelves := hopp.length_le
  obtain ⟨e', opp', sp', hrun, hopp', hok', hswept⟩ := matchLoop_spec hopp hok
    (show sp.length < Engine.loopBound poolCapacity by unfold Engine.loopBound; omega)
  have hdisj := (List.nodup_append.mp hok.nodup_live).2.2
  have hframe : ∀ t ∈ slots so, e'.heap t = e.heap t := by
    intro t ht
    refine hswept.frame.outside t ?_ fun hmem => hdisj t hmem t ht rfl
    exact ne_of_mem_of_not_mem (show t ∈ slots sp ++ slots so by simp [ht]) hok.notMem_live
  refine ⟨e', opp', sp', hrun, hown.frame hframe, hopp', hok', fun t ht => ?_, hframe, hswept.fills,
    hswept.rest, hswept.frame.taker⟩
  have hmem := hswept.suffix.subset ht
  exact ⟨hmem, (hswept.frame.inside t hmem).1⟩

/-- The second part: the remainder rests behind all orders of its side that are not worse. -/
theorem pushSide_spec (hown : SideOk isBid e.heap own so) (hopp : SideOk (!isBid) e.heap opp sp)
    (hok : EngineOk e [o] (slots sp ++ slots so)) (hqty : 0 < (e.heap o).quantity)
    (hbuy : (e.heap o).side = .buy ↔ isBid = true)
    (hnew : ∀ t ∈ slots sp ++ slots so, (e.heap t).id ≠ (e.heap o).id) :
    ∃ e₁ own' e' so', MapOrderBook.pushTo isBid e own o = (e₁, own') ∧
      e₁.insertId (e₁.heap o).id o = .ok e' ∧
      SideOk isBid e'.heap own' so' ∧ SideOk (!isBid) e'.heap opp sp ∧
      EngineOk e' [] (slots sp ++ slots so') ∧ e'.fills = e.fills ∧
      viewOf e'.heap so' = enqueue isBid (restingOf e.heap o) (viewOf e.heap so) ∧
      viewOf e'.heap sp = viewOf e.heap sp := by
  have hnodup := List.nodup_append.mp hok.nodup_live
  have ho := hok.notMem_live
  obtain ⟨h', own', so', l, r, hpush, hside', hbodies, hframe, hslots, hslots', hl, hr⟩ :=
    pushTo_spec hown (fun hmem => ho (by simp [hmem])) hnodup.2.1 hqty hbuy
  have hok₁ : EngineOk (e.setHeap h') [o] (slots sp ++ slots so) :=
    hok.setHeap fun t _ => hbodies.id_eq t
  have hnew₁ : ∀ t ∈ slots sp ++ slots so,
      ((e.setHeap h').heap t).id ≠ ((e.setHeap h').heap o).id := by
    intro t ht
    rw [Engine.heap_setHeap, hbodies.id_eq, hbodies.id_eq]
    exact hnew t ht
  obtain ⟨e', hinsert, hok', hheap, hfills⟩ := hok₁.enter hnew₁
  rw [Engine.heap_setHeap] at hheap
  -- the slots of the other side are not among those that `pushTo` writes
  have hopp_frame : ∀ t ∈ slots sp, e'.heap t = e.heap t := by
    intro t ht
    rw [hheap]
    exact hframe t (fun hso => hnodup.2.2 t ht t hso rfl)
      (ne_of_mem_of_not_mem (show t ∈ slots sp ++ slots so by simp [ht]) ho)
  refine ⟨e.setHeap h', own', e', so', hpush, hinsert, ?_, hopp.frame hopp_frame, ?_, hfills, ?_,
    viewOf_frame hopp_frame⟩
  · rw [hheap]
    exact hside'
  · refine hok'.perm ?_
    rw [hslots, hslots', ← List.append_assoc, ← List.append_assoc]
    exact List.perm_middle.symm
  · have hsame : restingOf h' = restingOf e.heap := funext fun t => restingOf_congr (hbodies t)
    rw [hheap, viewOf, viewOf, hslots, hslots', hsame, List.map_append, List.map_append,
      List.map_cons, enqueue_append]
    · intro x hx
      obtain ⟨t, ht, rfl⟩ := List.mem_map.mp hx
      exact hl t ht
    · intro x hx
      obtain ⟨t, ht, rfl⟩ := List.mem_map.mp hx
      exact hr t ht

/-- The steps in which an order is added: it is matched against the other side, and then its
remainder is pushed or its slot is released. -/
def AddSteps (isBid : Bool) (o : OrderRef) (e e' : Engine poolCapacity)
    (own own' opp opp' : MapLevels) : Prop :=
  ∃ e₁, MapOrderBook.matchLoop (!isBid) o (Engine.loopBound poolCapacity) e opp =
      .ok (e₁, opp') ∧
    (e₁.heap o).side = (e.heap o).side ∧ (e₁.heap o).price = (e.heap o).price ∧
    ((0 < (e₁.heap o).quantity ∧ ∃ e₂, MapOrderBook.pushTo isBid e₁ own o = (e₂, own') ∧
        e₂.insertId (e₂.heap o).id o = .ok e') ∨
      (¬ 0 < (e₁.heap o).quantity ∧ e₁.release o = .ok e' ∧ own' = own))

/-- Both parts. -/
theorem addSides_spec (hown : SideOk isBid e.heap own so) (hopp : SideOk (!isBid) e.heap opp sp)
    (hok : EngineOk e [o] (slots sp ++ slots so))
    (hbuy : (e.heap o).side = .buy ↔ isBid = true)
    (hnew : ∀ t ∈ slots sp ++ slots so, (e.heap t).id ≠ (e.heap o).id) :
    ∃ e' own' opp' so' sp', AddSteps isBid o e e' own own' opp opp' ∧
      SideOk isBid e'.heap own' so' ∧ SideOk (!isBid) e'.heap opp' sp' ∧
      EngineOk e' [] (slots sp' ++ slots so') ∧
      viewOf e'.heap so' = RestingBook.joined isBid (e.heap o).id (e.heap o).price
        (sideSweep (!isBid) e.heap o (slots sp)).left (viewOf e.heap so) ∧
      viewOf e'.heap sp' = (sideSweep (!isBid) e.heap o (slots sp)).rest ∧
      e'.fills = e.fills ++ (sideSweep (!isBid) e.heap o (slots sp)).fills := by
  obtain ⟨e₁, opp', sp', hmatch, hown₁, hopp₁, hok₁, hids, hframe, hfills₁, hview₁, ho₁⟩ :=
    matchSides_spec hown hopp hok
  have hqty₁ : (e₁.heap o).quantity = (sideSweep (!isBid) e.heap o (slots sp)).left := by rw [ho₁]
  -- matching removes orders, so the id is still new
  have hnew₁ : ∀ t ∈ slots sp' ++ slots so, (e₁.heap t).id ≠ (e₁.heap o).id := by
    intro t ht
    rw [ho₁]
    rcases List.mem_append.mp ht with ht | ht
    · rw [(hids t ht).2]
      exact hnew t (by simp [(hids t ht).1])
    · rw [hframe t ht]
      exact hnew t (by simp [ht])
  rw [RestingBook.joined, ← hqty₁]
  by_cases hqty : 0 < (e₁.heap o).quantity
  · obtain ⟨e₂, own', e', so', hpush, hinsert, hown', hopp', hok', hfills', hview', hview''⟩ :=
      pushSide_spec hown₁ hopp₁ hok₁ hqty (by rw [ho₁]; exact hbuy) hnew₁
    refine ⟨e', own', opp', so', sp',
      ⟨e₁, hmatch, by rw [ho₁], by rw [ho₁], Or.inl ⟨hqty, e₂, hpush, hinsert⟩⟩, hown', hopp', hok',
      ?_, hview''.trans hview₁, hfills'.trans hfills₁⟩
    rw [hview', viewOf_frame hframe, if_pos hqty, restingOf, ho₁]
  · obtain ⟨e', hrelease, hok', hheap, hfills⟩ := hok₁.discard
    refine ⟨e', own, opp', so, sp',
      ⟨e₁, hmatch, by rw [ho₁], by rw [ho₁], Or.inr ⟨hqty, hrelease, rfl⟩⟩, ?_, ?_, hok', ?_, ?_,
      hfills.trans hfills₁⟩
    · rw [hheap]
      exact hown₁
    · rw [hheap]
      exact hopp₁
    · rw [hheap, viewOf_frame hframe, if_neg hqty]
    · rw [hheap, hview₁]

end Add

/-! ## The invariant -/

/-- Each map is made up of shelves, and the pool and the id map agree with the orders on them. -/
structure MapOk {poolCapacity : Nat} (b : MapOrderBook poolCapacity) (sb sa : List Shelf) :
    Prop where
  bids : SideOk true b.engine.heap b.bids sb
  asks : SideOk false b.engine.heap b.asks sa
  engine : EngineOk b.engine [] (slots sb ++ slots sa)

/-- The resting orders of a book whose shelves are known. -/
def bookView (h : Heap) (sb sa : List Shelf) : RestingBook := ⟨viewOf h sb, viewOf h sa⟩

/-- There are as many resting orders as slots on the shelves. -/
theorem length_bookView {h : Heap} {sb sa : List Shelf} :
    (bookView h sb sa).all.length = (slots sb ++ slots sa).length := by
  simp [RestingBook.all, bookView, viewOf]

/-- The resting orders are those in the slots on the shelves. -/
theorem mem_bookView {h : Heap} {sb sa : List Shelf} {r : Resting} :
    r ∈ (bookView h sb sa).all ↔ ∃ t ∈ slots sb ++ slots sa, restingOf h t = r := by
  rw [RestingBook.all, bookView, viewOf, viewOf, ← List.map_append, List.mem_map]

section Book

variable {poolCapacity : Nat} {b : MapOrderBook poolCapacity} {sb sa : List Shelf}

/-- The id map does not know an id if no resting order has it. -/
theorem MapOk.find_eq_none (hok : MapOk b sb sa) {id : OrderId} :
    b.engine.idMap.find id = none ↔ ∀ r ∈ (bookView b.engine.heap sb sa).all, r.id ≠ id := by
  rw [hok.engine.find_eq_none]
  constructor
  · intro h r hr
    obtain ⟨t, ht, rfl⟩ := mem_bookView.mp hr
    exact h t ht
  · intro h t ht
    exact h _ (mem_bookView.mpr ⟨t, ht, rfl⟩)

/-- The id map knows the ids that rest. -/
theorem MapOk.find_isSome (hok : MapOk b sb sa) {id : OrderId} :
    (b.engine.idMap.find id).isSome = true ↔
      ∃ r ∈ (bookView b.engine.heap sb sa).all, r.id = id := by
  rw [Option.isSome_iff_ne_none, ne_eq, hok.find_eq_none]
  simp

/-- A fresh book has no orders. -/
theorem fresh_mapOk : MapOk ({} : MapOrderBook poolCapacity) [] [] := by
  refine ⟨SideOk.nil, SideOk.nil, ?_,
    OrderIdMap.fresh_well_formed (idMapCapacity_isPowerOfTwo _), rfl, fun id ptr => ?_, ?_⟩
  · exact List.Perm.refl _
  · refine iff_of_false (OrderIdMap.fresh_not_present id ptr) ?_
    rintro ⟨o, ho, _⟩
    cases ho
  · exact List.nodup_nil

/-- The steps in which an order is added to the book, on its own side. -/
def AddsTo (o : OrderRef) (b b' : MapOrderBook poolCapacity) : Prop :=
  if (b.engine.heap o).side = .buy then
    AddSteps true o b.engine b'.engine b.bids b'.bids b.asks b'.asks
  else AddSteps false o b.engine b'.engine b.asks b'.asks b.bids b'.bids

/-- What the code computes in these steps. -/
theorem AddsTo.run {o : OrderRef} {b' : MapOrderBook poolCapacity} (hadds : AddsTo o b b') :
    (b.matchIncoming o >>= fun b => b.rest o) = .ok b' := by
  unfold AddsTo at hadds
  split at hadds
  · next hside =>
      obtain ⟨e₁, hmatch, hside₁, -, hrest⟩ := hadds
      rw [MapOrderBook.matchIncoming, if_pos hside]
      show (MapOrderBook.matchLoop (!true) o _ b.engine b.asks >>= _ >>= _) = _
      rw [hmatch]
      show MapOrderBook.rest { b with engine := e₁, asks := b'.asks } o = _
      rw [MapOrderBook.rest]
      -- a remainder rests, a filled order is released
      rcases hrest with ⟨hqty, e₂, hpush, hinsert⟩ | ⟨hqty, hrelease, hsame⟩
      · rw [if_pos hqty, if_pos (hside₁.trans hside), hpush]
        show (e₂.insertId (e₂.heap o).id o >>= _) = _
        rw [hinsert]
        rfl
      · rw [if_neg hqty]
        show (e₁.release o >>= _) = _
        rw [hrelease]
        show Except.ok (MapOrderBook.mk b.bids b'.asks b'.engine) = _
        rw [← hsame]
  · next hside =>
      obtain ⟨e₁, hmatch, hside₁, -, hrest⟩ := hadds
      rw [MapOrderBook.matchIncoming, if_neg hside]
      show (MapOrderBook.matchLoop (!false) o _ b.engine b.bids >>= _ >>= _) = _
      rw [hmatch]
      show MapOrderBook.rest { b with engine := e₁, bids := b'.bids } o = _
      rw [MapOrderBook.rest]
      rcases hrest with ⟨hqty, e₂, hpush, hinsert⟩ | ⟨hqty, hrelease, hsame⟩
      · rw [if_pos hqty, if_neg (by rw [hside₁]; exact hside), hpush]
        show (e₂.insertId (e₂.heap o).id o >>= _) = _
        rw [hinsert]
        rfl
      · rw [if_neg hqty]
        show (e₁.release o >>= _) = _
        rw [hrelease]
        show Except.ok (MapOrderBook.mk b'.bids b.asks b'.engine) = _
        rw [← hsame]

/-- Matching and resting an order that has a slot does what `RestingBook.add` does. -/
theorem match_rest_spec {o : OrderRef} {order : Order} (horder : b.engine.heap o = order)
    (hbids : SideOk true b.engine.heap b.bids sb)
    (hasks : SideOk false b.engine.heap b.asks sa)
    (hok : EngineOk b.engine [o] (slots sb ++ slots sa))
    (hnew : ∀ t ∈ slots sb ++ slots sa, (b.engine.heap t).id ≠ order.id) :
    ∃ b' sb' sa', AddsTo o b b' ∧ MapOk b' sb' sa' ∧
      bookView b'.engine.heap sb' sa' = (bookView b.engine.heap sb sa).add
        (order.side = .buy) order.id order.price order.quantity ∧
      b'.engine.fills = b.engine.fills ++ ((bookView b.engine.heap sb sa).sweepOf
        (order.side = .buy) order.id order.price order.quantity).fills := by
  subst horder
  by_cases hside : (b.engine.heap o).side = .buy
  · obtain ⟨e', bids', asks', sb', sa', hsteps, hbids', hasks', hok', hown, hopp, hfills⟩ :=
      addSides_spec hbids hasks (hok.perm List.perm_append_comm) (iff_of_true hside rfl)
        (fun t ht => hnew t (List.perm_append_comm.mem_iff.mp ht))
    refine ⟨⟨bids', asks', e'⟩, sb', sa', ?_, ⟨hbids', hasks', hok'.perm List.perm_append_comm⟩,
      ?_, ?_⟩
    · rw [AddsTo, if_pos hside]
      exact hsteps
    · rw [decide_eq_true hside]
      exact congrArg₂ RestingBook.mk hown hopp
    · rw [decide_eq_true hside]
      exact hfills
  · obtain ⟨e', asks', bids', sa', sb', hsteps, hasks', hbids', hok', hown, hopp, hfills⟩ :=
      addSides_spec hasks hbids hok (iff_of_false hside Bool.false_ne_true) hnew
    refine ⟨⟨bids', asks', e'⟩, sb', sa', ?_, ⟨hbids', hasks', hok'⟩, ?_, ?_⟩
    · rw [AddsTo, if_neg hside]
      exact hsteps
    · rw [decide_eq_false hside]
      exact congrArg₂ RestingBook.mk hopp hown
    · rw [decide_eq_false hside]
      exact hfills

/-- A new order has been written to a slot: the orders that rest are the same. -/
theorem MapOk.allocated (hok : MapOk b sb sa) {order : Order} {o : OrderRef}
    {pool : MemoryPool Order poolCapacity}
    (halloc : b.engine.pool.allocate order = some (o, pool)) :
    SideOk true pool.storage b.bids sb ∧ SideOk false pool.storage b.asks sa ∧
      EngineOk { b.engine with pool := pool } [o] (slots sb ++ slots sa) ∧
      pool.storage o = order ∧ (∀ t ∈ slots sb ++ slots sa, pool.storage t = b.engine.heap t) ∧
      bookView pool.storage sb sa = bookView b.engine.heap sb sa := by
  rcases hok.engine.allocate order with ⟨hnone, -⟩ | ⟨o', pool', halloc', -, hok₀, hstorage⟩
  · rw [hnone] at halloc
    cases halloc
  obtain ⟨rfl, rfl⟩ := Prod.mk.inj (Option.some.inj (halloc'.symm.trans halloc))
  -- the slot of the new order is none of the resting ones
  have hframe : ∀ t ∈ slots sb ++ slots sa, pool'.storage t = b.engine.heap t := by
    intro t ht
    rw [hstorage]
    exact Function.update_of_ne (ne_of_mem_of_not_mem ht hok₀.notMem_live) _ _
  refine ⟨hok.bids.frame fun t ht => hframe t (by simp [ht]),
    hok.asks.frame fun t ht => hframe t (by simp [ht]), hok₀, ?_, hframe, ?_⟩
  · rw [hstorage, Function.update_self]
  · rw [bookView, viewOf_frame fun t ht => hframe t (by simp [ht]),
      viewOf_frame fun t ht => hframe t (by simp [ht]), bookView]

/-- An order with a new id finds no slot if all are in use, and else is added as
`RestingBook.add` does. -/
theorem allocate_add_spec (hok : MapOk b sb sa) (order : Order)
    (hnew : ∀ r ∈ (bookView b.engine.heap sb sa).all, r.id ≠ order.id) :
    ((bookView b.engine.heap sb sa).all.length = poolCapacity ∧
        b.engine.pool.allocate order = none) ∨
      ∃ o pool b' sb' sa', (bookView b.engine.heap sb sa).all.length < poolCapacity ∧
        b.engine.pool.allocate order = some (o, pool) ∧ pool.storage o = order ∧
        AddsTo o { b with engine := { b.engine with pool := pool } } b' ∧ MapOk b' sb' sa' ∧
        bookView b'.engine.heap sb' sa' = (bookView b.engine.heap sb sa).add
          (order.side = .buy) order.id order.price order.quantity ∧
        b'.engine.fills = b.engine.fills ++ ((bookView b.engine.heap sb sa).sweepOf
          (order.side = .buy) order.id order.price order.quantity).fills := by
  rw [length_bookView]
  have hid : ∀ t ∈ slots sb ++ slots sa, (b.engine.heap t).id ≠ order.id :=
    hok.engine.find_eq_none.mp (hok.find_eq_none.mpr hnew)
  rcases hok.engine.allocate order with ⟨hnone, hfull⟩ | ⟨o, pool, halloc, hlt, -, -⟩
  · exact Or.inl ⟨hfull, hnone⟩
  obtain ⟨hbids, hasks, hok₀, ho, hframe, hview⟩ := hok.allocated halloc
  obtain ⟨b', sb', sa', hadds, hok', hbook, hfills⟩ := match_rest_spec
    (b := { b with engine := { b.engine with pool := pool } }) ho hbids hasks hok₀
    (fun t ht => by
      show (pool.storage t).id ≠ order.id
      rw [hframe t ht]
      exact hid t ht)
  rw [← hview]
  exact Or.inr ⟨o, pool, b', sb', sa', hlt, halloc, ho, hadds, hok', hbook, hfills⟩

/-! ## Cancelling an order -/

/-- Orders with other ids stay. -/
theorem filter_viewOf {h : Heap} {q : List OrderRef} {id : OrderId}
    (hother : ∀ t ∈ q, (h t).id ≠ id) :
    (q.map (restingOf h)).filter (fun r => r.id ≠ id) = q.map (restingOf h) := by
  refine List.filter_eq_self.mpr fun r hr => ?_
  obtain ⟨t, ht, rfl⟩ := List.mem_map.mp hr
  exact decide_eq_true (hother t ht)

/-- The order with the id goes, and the others stay. -/
theorem filter_viewOf_middle {h : Heap} {l r : List OrderRef} {o : OrderRef} {id : OrderId}
    (ho : (h o).id = id) (hother : ∀ t ∈ l ++ r, (h t).id ≠ id) :
    ((l ++ o :: r).map (restingOf h)).filter (fun r => r.id ≠ id) = (l ++ r).map (restingOf h) := by
  have hdrop : ([o].map (restingOf h)).filter (fun r => r.id ≠ id) = [] := by
    simp [restingOf, ho]
  rw [List.append_cons, List.map_append, List.map_append, List.filter_append, List.filter_append,
    hdrop, List.append_nil, ← List.filter_append, ← List.map_append, filter_viewOf hother]

/-- What is left to do after an order has been taken out of its side. -/
theorem drop_spec {isBid : Bool} {e : Engine poolCapacity} {o : OrderRef} {levels : MapLevels}
    {s : List Shelf} {others : List OrderRef} (hside : SideOk isBid e.heap levels s)
    (hok : EngineOk e [] (slots s ++ others)) (ho : o ∈ slots s) :
    ∃ e₁ levels' e' s', MapOrderBook.removeFromBook e levels o = some (e₁, levels') ∧
      (e₁.eraseId (e.heap o).id).release o = .ok e' ∧ SideOk isBid e'.heap levels' s' ∧
      EngineOk e' [] (slots s' ++ others) ∧ (∀ t ∈ others, e'.heap t = e.heap t) ∧
      e'.fills = e.fills ∧
      viewOf e'.heap s' = (viewOf e.heap s).filter fun r => r.id ≠ (e.heap o).id := by
  have hnodup := List.nodup_append.mp hok.nodup_live
  obtain ⟨h', levels', s', l, r, hremove, hside', hbodies, hframe, hslots, hslots'⟩ :=
    removeFromBook_spec hside ho hnodup.1
  -- the slot of the order moves to the front, where `drop` takes it
  have hok₁ : EngineOk (e.setHeap h') [] (o :: (slots s' ++ others)) := by
    refine (hok.setHeap fun t _ => hbodies.id_eq t).perm ?_
    rw [hslots, hslots', List.append_assoc, List.append_assoc]
    exact List.perm_middle
  obtain ⟨e', hrelease, hok', hheap, hfills⟩ := hok₁.drop
  rw [Engine.heap_setHeap, hbodies.id_eq] at hrelease
  rw [Engine.heap_setHeap] at hheap
  have hids := List.nodup_cons.mp (List.map_cons ▸ hok₁.ids)
  refine ⟨e.setHeap h', levels', e', s', hremove, hrelease, ?_, hok', fun t ht => ?_, hfills, ?_⟩
  · rw [hheap]
    exact hside'
  · rw [hheap]
    exact hframe t fun hmem => hnodup.2.2 t hmem t ht rfl
  · have hsame : restingOf h' = restingOf e.heap := funext fun t => restingOf_congr (hbodies t)
    rw [hheap, viewOf, viewOf, hslots, hslots', hsame, filter_viewOf_middle rfl]
    intro t ht heq
    have hmem : t ∈ slots s' ++ others := by
      rw [hslots']
      simp only [List.mem_append] at ht ⊢
      tauto
    refine hids.1 (List.mem_map.mpr ⟨t, hmem, ?_⟩)
    rw [Engine.heap_setHeap, hbodies.id_eq, hbodies.id_eq]
    exact heq

/-- `cancelOrder` fails for an id that no resting order has, and else does what
`RestingBook.cancel` does. -/
theorem cancelOrder_spec (hok : MapOk b sb sa) (id : OrderId) :
    ((∀ r ∈ (bookView b.engine.heap sb sa).all, r.id ≠ id) ∧
        b.engine.idMap.find id = none ∧ b.cancelOrder id = .ok (false, b)) ∨
      ∃ b' sb' sa', (∃ r ∈ (bookView b.engine.heap sb sa).all, r.id = id) ∧
        (b.engine.idMap.find id).isSome ∧ b.cancelOrder id = .ok (true, b') ∧ MapOk b' sb' sa' ∧
        bookView b'.engine.heap sb' sa' = (bookView b.engine.heap sb sa).cancel id ∧
        b'.engine.fills = b.engine.fills := by
  cases hfind : b.engine.idMap.find id with
  | none =>
      refine Or.inl ⟨hok.find_eq_none.mp hfind, rfl, ?_⟩
      rw [MapOrderBook.cancelOrder, hfind]
      rfl
  | some o =>
      obtain ⟨ho, rfl⟩ := hok.engine.find_eq_some.mp hfind
      have hex : ∃ r ∈ (bookView b.engine.heap sb sa).all, r.id = (b.engine.heap o).id :=
        hok.find_isSome.mp (by rw [hfind]; rfl)
      refine Or.inr ?_
      -- no other live order has the id
      have hne : ∀ t ∈ slots sb ++ slots sa, t ≠ o → (b.engine.heap t).id ≠ (b.engine.heap o).id :=
        fun t ht hto heq => hto (List.inj_on_of_nodup_map hok.engine.ids ht ho heq)
      have hdisj := (List.nodup_append.mp hok.engine.nodup_live).2.2
      rcases List.mem_append.mp ho with hob | hoa
      · have hbuy : (b.engine.heap o).side = .buy := (hok.bids.order hob).2.mpr rfl
        obtain ⟨e₁, bids', e', sb', hremove, hrelease, hbids', hok', hframe, hfills, hview⟩ :=
          drop_spec hok.bids hok.engine hob
        refine ⟨{ b with engine := e', bids := bids' }, sb', sa, hex, rfl, ?_,
          ⟨hbids', hok.asks.frame hframe, hok'⟩, ?_, hfills⟩
        · rw [MapOrderBook.cancelOrder, hfind]
          simp only [if_pos hbuy, hremove, Option.map_some, hrelease, ok_bind, pure_eq_ok]
        · refine congrArg₂ RestingBook.mk hview ?_
          rw [viewOf_frame hframe]
          refine (filter_viewOf fun t ht => hne t (by simp [ht]) ?_).symm
          rintro rfl
          exact hdisj t hob t ht rfl
      · have hsell : (b.engine.heap o).side ≠ .buy := fun h =>
          Bool.false_ne_true ((hok.asks.order hoa).2.mp h)
        obtain ⟨e₁, asks', e', sa', hremove, hrelease, hasks', hok', hframe, hfills, hview⟩ :=
          drop_spec hok.asks (hok.engine.perm List.perm_append_comm) hoa
        refine ⟨{ b with engine := e', asks := asks' }, sb, sa', hex, rfl, ?_,
          ⟨hok.bids.frame hframe, hasks', hok'.perm List.perm_append_comm⟩, ?_, hfills⟩
        · rw [MapOrderBook.cancelOrder, hfind]
          simp only [if_neg hsell, hremove, Option.map_some, hrelease, ok_bind, pure_eq_ok]
        · refine congrArg₂ RestingBook.mk ?_ hview
          rw [viewOf_frame hframe]
          refine (filter_viewOf fun t ht => hne t (by simp [ht]) ?_).symm
          rintro rfl
          exact hdisj t ht t hoa rfl

end Book

end LimitOrderBook
