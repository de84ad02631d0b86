import LimitOrderBook.Book.PriceTime
import LimitOrderBook.IdMap.Correctness
import LimitOrderBook.Level.Queue

/-!
# Matching against one level

`EngineOk e pending live` says that the pool, the id map and the resting orders agree: the slots
of the resting orders `live`, those of orders that are being added (`pending`) and the free ones
make up the pool, and the id map leads from the id of each resting order to its slot.

`matchAgainstLevel_spec` follows the loop over one level: what it does to the queue of the level
is a sweep, and it never runs out of its bound.
-/

namespace LimitOrderBook

open PriceLevel

/-! ## The capacity of the id map -/

/-- Doubling a power of two keeps it one. -/
theorem growTo_isPowerOfTwo (limit fuel n : Nat) (hn : n.isPowerOfTwo) :
    (growTo limit fuel n).isPowerOfTwo := by
  induction fuel generalizing n with
  | zero => exact hn
  | succ fuel ih =>
      rw [growTo]
      split
      · refine ih _ ?_
        obtain ⟨k, rfl⟩ := hn
        exact ⟨k + 1, by rw [Nat.shiftLeft_eq, pow_one, pow_succ]⟩
      · exact hn

/-- With enough fuel the doubling reaches its limit. -/
theorem le_growTo (limit fuel n : Nat) (hpos : 0 < n) (hfuel : limit ≤ fuel + n) :
    limit ≤ growTo limit fuel n := by
  induction fuel generalizing n with
  | zero => simpa [growTo] using hfuel
  | succ fuel ih =>
      rw [growTo]
      split
      · rw [Nat.shiftLeft_eq, pow_one]
        exact ih _ (by omega) (by omega)
      · omega

/-- The capacity of the id map is a power of two. -/
theorem idMapCapacity_isPowerOfTwo (poolCapacity : Nat) :
    (idMapCapacity poolCapacity).isPowerOfTwo :=
  growTo_isPowerOfTwo _ _ _ ⟨0, rfl⟩

/-- The capacity of the id map is at least twice that of the pool. -/
theorem two_mul_le_idMapCapacity (poolCapacity : Nat) :
    2 * poolCapacity ≤ idMapCapacity poolCapacity :=
  le_growTo _ _ _ (by omega) (by omega)

/-! ## The pool, the id map and the resting orders -/

variable {poolCapacity : Nat}

namespace Engine

variable {e : Engine poolCapacity} {h : Heap} {fill : Fill}

@[simp] theorem heap_setHeap : (e.setHeap h).heap = h := rfl

@[simp] theorem heap_onFill : (e.onFill fill).heap = e.heap := rfl

end Engine

/-- The pool, the id map and the resting orders agree. -/
structure EngineOk (e : Engine poolCapacity) (pending live : List OrderRef) : Prop where
  slots : (pending ++ (live ++ e.pool.freeList)).Perm (List.range poolCapacity)
  wellFormed : e.idMap.WellFormed
  size : e.idMap.size = live.length
  present : ∀ id ptr, e.idMap.Present id ptr ↔ ∃ o ∈ live, ptr = some o ∧ (e.heap o).id = id
  ids : (live.map fun o => (e.heap o).id).Nodup

namespace EngineOk

variable {e : Engine poolCapacity} {pending live : List OrderRef} {o : OrderRef}

/-- The order in which the resting orders are listed does not matter. -/
theorem perm {live' : List OrderRef} (hok : EngineOk e pending live) (hperm : live.Perm live') :
    EngineOk e pending live' := by
  refine ⟨?_, hok.wellFormed, hok.size.trans hperm.length_eq, fun id ptr => ?_, ?_⟩
  · exact (((hperm.append_right _).append_left _).symm).trans hok.slots
  · rw [hok.present]
    simp only [hperm.mem_iff]
  · exact (hperm.map _).nodup_iff.mp hok.ids

/-- No slot is listed twice. -/
theorem nodup (hok : EngineOk e pending live) :
    (pending ++ (live ++ e.pool.freeList)).Nodup :=
  hok.slots.nodup_iff.mpr List.nodup_range

/-- No resting order is listed twice. -/
theorem nodup_live (hok : EngineOk e pending live) : live.Nodup :=
  (List.nodup_append.mp (List.nodup_append.mp hok.nodup).2.1).1

/-- An order that is being added does not rest. -/
theorem notMem_live (hok : EngineOk e [o] live) : o ∉ live := fun hmem =>
  (List.nodup_cons.mp hok.nodup).1 (by simp [hmem])

/-- All slots are accounted for. -/
theorem length_eq (hok : EngineOk e pending live) :
    pending.length + (live.length + e.pool.freeList.length) = poolCapacity := by
  have h := hok.slots.length_eq
  simpa using h

/-- The id map finds exactly the resting orders. -/
theorem find_eq_some (hok : EngineOk e pending live) {id : OrderId} :
    e.idMap.find id = some o ↔ o ∈ live ∧ (e.heap o).id = id := by
  have hcap := idMapCapacity_isPowerOfTwo poolCapacity
  constructor
  · intro hfind
    by_contra hnot
    have hnone : ∀ ptr, ¬ e.idMap.Present id ptr := by
      intro ptr hptr
      rw [OrderIdMap.find_of_holds hcap hok.wellFormed hptr] at hfind
      subst hfind
      obtain ⟨o', ho', heq, hid⟩ := (hok.present id _).mp hptr
      cases heq
      exact hnot ⟨ho', hid⟩
    rw [OrderIdMap.find_of_absent hcap hnone] at hfind
    cases hfind
  · rintro ⟨hmem, hid⟩
    exact OrderIdMap.find_of_holds hcap hok.wellFormed ((hok.present id _).mpr ⟨o, hmem, rfl, hid⟩)

/-- The id map finds nothing exactly for the ids that no resting order has. -/
theorem find_eq_none (hok : EngineOk e pending live) {id : OrderId} :
    e.idMap.find id = none ↔ ∀ o ∈ live, (e.heap o).id ≠ id := by
  constructor
  · intro hnone o hmem hid
    rw [hok.find_eq_some.mpr ⟨hmem, hid⟩] at hnone
    cases hnone
  · intro hall
    cases hfind : e.idMap.find id with
    | none => rfl
    | some o =>
        obtain ⟨hmem, hid⟩ := hok.find_eq_some.mp hfind
        exact absurd hid (hall o hmem)

/-- A change of the heap that keeps the ids of the resting orders. -/
theorem setHeap (hok : EngineOk e pending live) {h : Heap}
    (hids : ∀ o ∈ live, (h o).id = (e.heap o).id) : EngineOk (e.setHeap h) pending live := by
  refine ⟨hok.slots, hok.wellFormed, hok.size, fun id ptr => ?_, ?_⟩
  · show e.idMap.Present id ptr ↔ _
    rw [hok.present]
    constructor
    · rintro ⟨o, ho, hptr, hid⟩
      exact ⟨o, ho, hptr, (hids o ho).trans hid⟩
    · rintro ⟨o, ho, hptr, hid⟩
      exact ⟨o, ho, hptr, (hids o ho).symm.trans hid⟩
  · have hmap : live.map (fun o => ((e.setHeap h).heap o).id) =
        live.map fun o => (e.heap o).id := List.map_congr_left hids
    rw [hmap]
    exact hok.ids

/-- Reporting a fill changes neither the pool nor the id map. -/
theorem onFill (hok : EngineOk e pending live) (fill : Fill) :
    EngineOk (e.onFill fill) pending live :=
  ⟨hok.slots, hok.wellFormed, hok.size, hok.present, hok.ids⟩

/-- A release succeeds while some slot is in use. -/
theorem release_eq (hlt : e.pool.freeList.length < poolCapacity) :
    e.release o = .ok { e with
      pool := { e.pool with freeList := e.pool.freeList ++ [o] } } := by
  simp only [Engine.release, MemoryPool.release, if_pos hlt, ok_bind, pure_eq_ok]

/-- A resting order leaves the book. -/
theorem drop (hok : EngineOk e pending (o :: live)) :
    ∃ e', (e.eraseId (e.heap o).id).release o = .ok e' ∧ EngineOk e' pending live ∧
      e'.heap = e.heap ∧ e'.fills = e.fills := by
  have hcap := idMapCapacity_isPowerOfTwo poolCapacity
  have hlen := hok.length_eq
  rw [List.length_cons] at hlen
  have hpresent : e.idMap.Present (e.heap o).id (some o) :=
    (hok.present _ _).mpr ⟨o, by simp, rfl, rfl⟩
  obtain ⟨m', herase, hwf', hsize', hpresent'⟩ := OrderIdMap.erase_spec hcap hok.wellFormed hpresent
  have hids := List.nodup_cons.mp (List.map_cons ▸ hok.ids)
  refine ⟨_, release_eq (show e.pool.freeList.length < poolCapacity by omega), ?_, rfl, rfl⟩
  refine ⟨?_, ?_, ?_, fun id ptr => ?_, hids.2⟩
  · -- the slot goes from the live ones to the free list
    refine List.Perm.trans ?_ hok.slots
    show (pending ++ (live ++ (e.pool.freeList ++ [o]))).Perm _
    rw [← List.append_assoc live]
    exact (List.perm_append_singleton o (live ++ e.pool.freeList)).append_left pending
  · show (e.idMap.erase (e.heap o).id).2.WellFormed
    rw [herase]
    exact hwf'
  · show (e.idMap.erase (e.heap o).id).2.size = _
    rw [herase]
    have hsize := hok.size
    rw [List.length_cons] at hsize
    show m'.size = live.length
    omega
  · show (e.idMap.erase (e.heap o).id).2.Present id ptr ↔ _
    rw [herase]
    show m'.Present id ptr ↔ _
    rw [hpresent', hok.present]
    constructor
    · rintro ⟨hne, o', ho', hptr, hid⟩
      rcases List.mem_cons.mp ho' with rfl | ho'
      · exact absurd hid.symm hne
      · exact ⟨o', ho', hptr, hid⟩
    · rintro ⟨o', ho', hptr, hid⟩
      refine ⟨fun heq => hids.1 ?_, o', by simp [ho'], hptr, hid⟩
      rw [← heq, ← hid]
      exact List.mem_map_of_mem ho'

/-- An order that is not to rest gives its slot back. -/
theorem discard (hok : EngineOk e [o] live) :
    ∃ e', e.release o = .ok e' ∧ EngineOk e' [] live ∧ e'.heap = e.heap ∧ e'.fills = e.fills := by
  have hlen := hok.length_eq
  rw [List.length_singleton] at hlen
  refine ⟨_, release_eq (by omega), ⟨?_, hok.wellFormed, hok.size, hok.present, hok.ids⟩, rfl, rfl⟩
  refine List.Perm.trans ?_ hok.slots
  show ([] ++ (live ++ (e.pool.freeList ++ [o]))).Perm ([o] ++ (live ++ e.pool.freeList))
  rw [← List.append_assoc live, List.nil_append]
  exact List.perm_append_singleton o (live ++ e.pool.freeList)

/-- An order with a new id comes to rest. -/
theorem enter (hok : EngineOk e [o] live) (hnew : ∀ s ∈ live, (e.heap s).id ≠ (e.heap o).id) :
    ∃ e', e.insertId (e.heap o).id o = .ok e' ∧ EngineOk e' [] (o :: live) ∧ e'.heap = e.heap ∧
      e'.fills = e.fills := by
  have hcap := idMapCapacity_isPowerOfTwo poolCapacity
  have htwo := two_mul_le_idMapCapacity poolCapacity
  have hlen := hok.length_eq
  rw [List.length_singleton] at hlen
  have hsize := hok.size
  have habsent : ∀ ptr, ¬ e.idMap.Present (e.heap o).id ptr := by
    intro ptr hptr
    obtain ⟨s, hs, _, hid⟩ := (hok.present _ _).mp hptr
    exact hnew s hs hid
  -- the map has twice the capacity of the pool, so there is an empty slot
  obtain ⟨m', hinsert, hwf', hsize', hpresent'⟩ :=
    OrderIdMap.insert_spec hcap hok.wellFormed (some o) habsent (by omega)
  refine ⟨{ e with idMap := m' }, ?_, ⟨?_, hwf', ?_, fun id ptr => ?_, ?_⟩, rfl, rfl⟩
  · simp only [Engine.insertId, if_pos (show e.idMap.size < poolCapacity by omega), hinsert,
      ok_bind, pure_eq_ok]
  · exact hok.slots
  · show m'.size = _
    rw [List.length_cons]
    omega
  · show m'.Present id ptr ↔ _
    rw [hpresent', hok.present]
    constructor
    · rintro (⟨rfl, rfl⟩ | ⟨s, hs, hptr, hid⟩)
      · exact ⟨o, by simp, rfl, rfl⟩
      · exact ⟨s, by simp [hs], hptr, hid⟩
    · rintro ⟨s, hs, hptr, hid⟩
      rcases List.mem_cons.mp hs with rfl | hs
      · exact Or.inl ⟨hid.symm, hptr⟩
      · exact Or.inr ⟨s, hs, hptr, hid⟩
  · rw [List.map_cons, List.nodup_cons]
    refine ⟨fun hmem => ?_, hok.ids⟩
    obtain ⟨s, hs, hid⟩ := List.mem_map.mp hmem
    exact hnew s hs hid

/-- An order gets a slot unless as many orders rest as there are slots. -/
theorem allocate (hok : EngineOk e [] live) (order : Order) :
    (e.pool.allocate order = none ∧ live.length = poolCapacity) ∨
      ∃ o pool, e.pool.allocate order = some (o, pool) ∧ live.length < poolCapacity ∧
        EngineOk { e with pool := pool } [o] live ∧
        pool.storage = Function.update e.heap o order := by
  have hlen := hok.length_eq
  rw [List.length_nil] at hlen
  cases halloc : e.pool.allocate order with
  | none =>
      have hnil := MemoryPool.allocate_eq_none.mp halloc
      rw [hnil, List.length_nil] at hlen
      exact Or.inl ⟨rfl, by omega⟩
  | some result =>
      obtain ⟨o, pool⟩ := result
      obtain ⟨hfree, hstorage⟩ := MemoryPool.allocate_eq_some halloc
      have hslots := hok.slots
      rw [hfree, ← List.append_assoc live, List.nil_append] at hslots
      have hslots' : ([o] ++ (live ++ pool.freeList)).Perm (List.range poolCapacity) :=
        (List.perm_append_singleton o (live ++ pool.freeList)).symm.trans hslots
      have hnot : o ∉ live := fun hmem =>
        (List.nodup_cons.mp (hslots'.nodup_iff.mpr List.nodup_range)).1 (by simp [hmem])
      have hsame : ∀ s ∈ live, pool.storage s = e.heap s := fun s hs => by
        rw [hstorage]
        exact Function.update_of_ne (ne_of_mem_of_not_mem hs hnot) _ _
      refine Or.inr ⟨o, pool, rfl, ?_, ?_, hstorage⟩
      · rw [hfree, List.length_append, List.length_singleton] at hlen
        omega
      · have hids : ∀ s ∈ live, ((e.setHeap pool.storage).heap s).id = (e.heap s).id :=
          fun s hs => congrArg Order.id (hsame s hs)
        have hset := hok.setHeap hids
        exact ⟨hslots', hset.wellFormed, hset.size, hset.present, hset.ids⟩

end EngineOk

/-! ## One trade -/

/-- A resting order as the rules of priority see it. -/
def restingOf (h : Heap) (o : OrderRef) : Resting := ⟨(h o).id, (h o).price, (h o).quantity⟩

/-- Orders with the same bodies are the same to the rules of priority. -/
theorem restingOf_congr {h h' : Heap} {o : OrderRef} (hbody : (h' o).body = (h o).body) :
    restingOf h' o = restingOf h o := by
  have hid := congrArg Order.id hbody
  have hprice := congrArg Order.price hbody
  have hqty := congrArg Order.quantity hbody
  simp only [Order.body] at hid hprice hqty
  rw [restingOf, restingOf, hid, hprice, hqty]

/-- The situation inside `matchAgainstLevel`: `q` is what is left of the level's queue, and the
resting orders are those of `q` and the `others`. -/
structure InMatch (e : Engine poolCapacity) (incoming : OrderRef) (tradePrice : Price)
    (level : PriceLevel) (q others : List OrderRef) : Prop where
  engine : EngineOk e [incoming] (q ++ others)
  queued : Queued e.heap level q
  positive : ∀ o ∈ q, 0 < (e.heap o).quantity
  prices : ∀ o ∈ q, (e.heap o).price = tradePrice

/-- What a trade leaves alone: the orders outside the queue, all of the incoming order but its
quantity, and the side and price of the orders in the queue. -/
structure TradeFrame (incoming : OrderRef) (q : List OrderRef) (left : Quantity) (h h' : Heap) :
    Prop where
  taker : h' incoming = { h incoming with quantity := left }
  outside : ∀ s, s ≠ incoming → s ∉ q → h' s = h s
  inside : ∀ s ∈ q, (h' s).id = (h s).id ∧ (h' s).side = (h s).side ∧ (h' s).price = (h s).price

/-- A smaller trade followed by another one. -/
theorem TradeFrame.trans {incoming : OrderRef} {q q' : List OrderRef} {left left' : Quantity}
    {h h' h'' : Heap} (h₁ : TradeFrame incoming q left h h')
    (h₂ : TradeFrame incoming q' left' h' h'') (hq : ∀ s ∈ q', s ∈ q) (hinc : incoming ∉ q) :
    TradeFrame incoming q left' h h'' := by
  refine ⟨by rw [h₂.taker, h₁.taker], fun s hs hsq => ?_, fun s hs => ?_⟩
  · rw [h₂.outside s hs fun hmem => hsq (hq s hmem), h₁.outside s hs hsq]
  · obtain ⟨hid, hside, hprice⟩ := h₁.inside s hs
    by_cases hs' : s ∈ q'
    · obtain ⟨hid', hside', hprice'⟩ := h₂.inside s hs'
      exact ⟨hid'.trans hid, hside'.trans hside, hprice'.trans hprice⟩
    · rw [h₂.outside s (ne_of_mem_of_not_mem hs hinc) hs']
      exact ⟨hid, hside, hprice⟩

/-- A trade seen from a longer queue. -/
theorem TradeFrame.mono {incoming : OrderRef} {q q' : List OrderRef} {left : Quantity}
    {h h' : Heap} (hframe : TradeFrame incoming q left h h') (hq : ∀ s ∈ q, s ∈ q')
    (hinc : incoming ∉ q') : TradeFrame incoming q' left h h' := by
  refine ⟨hframe.taker, fun s hs hsq => hframe.outside s hs fun hmem => hsq (hq s hmem),
    fun s hs => ?_⟩
  by_cases hmem : s ∈ q
  · exact hframe.inside s hmem
  · rw [hframe.outside s (ne_of_mem_of_not_mem hs hinc) hmem]
    exact ⟨rfl, rfl, rfl⟩

section Trade

variable {e : Engine poolCapacity} {incoming o : OrderRef} {tradePrice : Price}
  {level : PriceLevel} {r others : List OrderRef}

/-- The incoming order is in no queue. -/
theorem InMatch.incoming_notMem {q : List OrderRef}
    (hm : InMatch e incoming tradePrice level q others) :
    incoming ∉ q := fun hmem =>
  hm.engine.notMem_live (List.mem_append.mpr (Or.inl hmem))

/-- The heap after both quantities have been reduced. -/
def reduced (h : Heap) (incoming o : OrderRef) (traded : Quantity) : Heap :=
  let h := Function.update h incoming { h incoming with quantity := (h incoming).quantity - traded }
  Function.update h o { h o with quantity := (h o).quantity - traded }

/-- The first half of a trade: both quantities are reduced and the fill is reported. -/
theorem reduce_spec (hm : InMatch e incoming tradePrice level (o :: r) others)
    (traded : Quantity) (fill : Fill) :
    EngineOk ((e.setHeap (reduced e.heap incoming o traded)).onFill fill) [incoming]
        (o :: r ++ others) ∧
      Queued (reduced e.heap incoming o traded)
        { level with totalQty := level.totalQty - traded } (o :: r) ∧
      TradeFrame incoming (o :: r) ((e.heap incoming).quantity - traded) e.heap
        (reduced e.heap incoming o traded) ∧
      (∀ s ∈ r, reduced e.heap incoming o traded s = e.heap s) ∧
      reduced e.heap incoming o traded o =
        { e.heap o with quantity := (e.heap o).quantity - traded } := by
  have hinc := hm.incoming_notMem
  have hne : o ≠ incoming := fun heq => hinc (by simp [heq])
  have hor : o ∉ r := (List.nodup_cons.mp hm.queued.nodup).1
  have hother : ∀ s, s ≠ incoming → s ≠ o → reduced e.heap incoming o traded s = e.heap s := by
    intro s hs hso
    simp only [reduced, Function.update_of_ne hso, Function.update_of_ne hs]
  have ho : reduced e.heap incoming o traded o =
      { e.heap o with quantity := (e.heap o).quantity - traded } := by
    simp only [reduced, Function.update_self, Function.update_of_ne hne]
  have hin : reduced e.heap incoming o traded incoming =
      { e.heap incoming with quantity := (e.heap incoming).quantity - traded } := by
    simp only [reduced, Function.update_of_ne hne.symm, Function.update_self]
  have hr : ∀ s ∈ r, reduced e.heap incoming o traded s = e.heap s := fun s hs =>
    hother s (ne_of_mem_of_not_mem (by simp [hs]) hinc) (ne_of_mem_of_not_mem hs hor)
  refine ⟨?_, ?_, ⟨hin, fun s hs hsq => hother s hs fun heq => hsq (by simp [heq]), ?_⟩, hr, ho⟩
  · refine (hm.engine.setHeap fun s hs => ?_).onFill fill
    by_cases hso : s = o
    · rw [hso, ho]
    · rw [hother s (ne_of_mem_of_not_mem hs hm.engine.notMem_live) hso]
  · have hframe : Queued (Function.update e.heap incoming
        { e.heap incoming with quantity := (e.heap incoming).quantity - traded }) level (o :: r) :=
      hm.queued.frame fun s hs => Function.update_of_ne (ne_of_mem_of_not_mem hs hinc) _ _
    exact (reduceHead_spec hframe traded).2
  · intro s hs
    rcases List.mem_cons.mp hs with rfl | hs
    · rw [ho]
      exact ⟨rfl, rfl, rfl⟩
    · rw [hr s hs]
      exact ⟨rfl, rfl, rfl⟩

/-- The state after the first half of a trade. -/
def traded (e : Engine poolCapacity) (incoming o : OrderRef) (tradePrice : Price)
    (qty : Quantity) : Engine poolCapacity :=
  (e.setHeap (reduced e.heap incoming o qty)).onFill
    ⟨(e.heap o).id, (e.heap incoming).id, tradePrice, qty⟩

/-- What `tradeHead` computes on the first order of a queue. -/
theorem tradeHead_eq (hm : InMatch e incoming tradePrice level (o :: r) others) {qty : Quantity}
    (hqty : min (e.heap incoming).quantity (e.heap o).quantity = qty) :
    e.tradeHead incoming level o tradePrice =
      (let e₁ := traded e incoming o tradePrice qty
       let level₁ := { level with totalQty := level.totalQty - qty }
       if (e₁.heap o).quantity = 0 then do
         let e₂ ← ((e₁.setHeap (level₁.remove e₁.heap o).1).eraseId
           ((level₁.remove e₁.heap o).1 o).id).release o
         pure (e₂, (level₁.remove e₁.heap o).2)
       else .ok (e₁, level₁)) := by
  have hinc := hm.incoming_notMem
  obtain ⟨-, -, hframe, -, ho⟩ := reduce_spec hm qty ⟨0, 0, 0, 0⟩
  have hframe' : Queued (Function.update e.heap incoming
      { e.heap incoming with quantity := (e.heap incoming).quantity - qty }) level (o :: r) :=
    hm.queued.frame fun s hs => Function.update_of_ne (ne_of_mem_of_not_mem hs hinc) _ _
  have hred : reduceHead (Function.update e.heap incoming
      { e.heap incoming with quantity := (e.heap incoming).quantity - qty }) level qty =
      .ok (reduced e.heap incoming o qty, { level with totalQty := level.totalQty - qty }) :=
    (reduceHead_spec hframe' qty).1
  have hoid : (reduced e.heap incoming o qty o).id = (e.heap o).id := by rw [ho]
  have hiid : (reduced e.heap incoming o qty incoming).id = (e.heap incoming).id := by
    rw [hframe.taker]
  simp only [Engine.tradeHead, hqty, hred, ok_bind, hoid, hiid, pure_eq_ok, traded,
    Engine.heap_onFill, Engine.heap_setHeap]
  rfl

/-- A trade that fills the resting order: it leaves the queue and the book. -/
theorem tradeHead_filled (hm : InMatch e incoming tradePrice level (o :: r) others)
    (hle : (e.heap o).quantity ≤ (e.heap incoming).quantity) :
    ∃ e' level', e.tradeHead incoming level o tradePrice = .ok (e', level') ∧
      InMatch e' incoming tradePrice level' r others ∧ level'.price = level.price ∧
      e'.fills = e.fills ++ [⟨(e.heap o).id, (e.heap incoming).id, tradePrice,
        (e.heap o).quantity⟩] ∧
      TradeFrame incoming (o :: r) ((e.heap incoming).quantity - (e.heap o).quantity) e.heap
        e'.heap ∧
      ∀ s ∈ r, (e'.heap s).body = (e.heap s).body := by
  obtain ⟨hengine, hqueued, hframe, hr, ho⟩ := reduce_spec hm (e.heap o).quantity
    ⟨(e.heap o).id, (e.heap incoming).id, tradePrice, (e.heap o).quantity⟩
  obtain ⟨hqueued', hprice, hbodies, -, -, hout⟩ := remove_spec (l := []) hqueued
  -- the order is out of the queue, but still in the id map and in the pool
  have hengine' : EngineOk ((traded e incoming o tradePrice (e.heap o).quantity).setHeap
      (remove (reduced e.heap incoming o (e.heap o).quantity)
        { level with totalQty := level.totalQty - (e.heap o).quantity } o).1) [incoming]
      (o :: (r ++ others)) := hengine.setHeap fun s _ => hbodies.id_eq s
  obtain ⟨e', hrun, hok', hheap', hfills'⟩ := hengine'.drop
  have hbody : ∀ s ∈ r, (e'.heap s).body = (e.heap s).body := fun s hs => by
    rw [hheap', Engine.heap_setHeap, hbodies s, hr s hs]
  have hinc := hm.incoming_notMem
  refine ⟨e', _, ?_, ⟨hok', ?_, fun s hs => ?_, fun s hs => ?_⟩, hprice, hfills',
    ⟨?_, fun s hs hsq => ?_, fun s hs => ?_⟩, hbody⟩
  · have hzero : ((traded e incoming o tradePrice (e.heap o).quantity).heap o).quantity = 0 :=
      (congrArg Order.quantity ho).trans (sub_self _)
    rw [tradeHead_eq hm (min_eq_right hle)]
    show (if _ = 0 then ((Engine.eraseId _ _).release o >>= _) else _) = _
    rw [if_pos hzero]
    exact (congrArg (· >>= _) hrun).trans rfl
  · rw [hheap']
    exact hqueued'
  · have hpos := hm.positive s (by simp [hs])
    have hq : (e'.heap s).quantity = (e.heap s).quantity := by
      simpa [Order.body] using congrArg Order.quantity (hbody s hs)
    rw [hq]
    exact hpos
  · have hp : (e'.heap s).price = (e.heap s).price := by
      simpa [Order.body] using congrArg Order.price (hbody s hs)
    rw [hp]
    exact hm.prices s (by simp [hs])
  · rw [hheap', Engine.heap_setHeap, hout incoming (by simpa using hinc), hframe.taker]
  · rw [hheap', Engine.heap_setHeap, hout s (by simpa using hsq), hframe.outside s hs hsq]
  · rw [hheap', Engine.heap_setHeap, hbodies.id_eq, hbodies.side_eq, hbodies.price_eq]
    exact hframe.inside s hs

/-- A trade that fills the incoming order: the resting one stays where it is. -/
theorem tradeHead_partly (hm : InMatch e incoming tradePrice level (o :: r) others)
    (hlt : (e.heap incoming).quantity < (e.heap o).quantity) :
    ∃ e' level', e.tradeHead incoming level o tradePrice = .ok (e', level') ∧
      InMatch e' incoming tradePrice level' (o :: r) others ∧ level'.price = level.price ∧
      e'.fills = e.fills ++ [⟨(e.heap o).id, (e.heap incoming).id, tradePrice,
        (e.heap incoming).quantity⟩] ∧
      TradeFrame incoming (o :: r) 0 e.heap e'.heap ∧
      (∀ s ∈ r, e'.heap s = e.heap s) ∧
      e'.heap o =
        { e.heap o with quantity := (e.heap o).quantity - (e.heap incoming).quantity } := by
  obtain ⟨hengine, hqueued, hframe, hr, ho⟩ := reduce_spec hm (e.heap incoming).quantity
    ⟨(e.heap o).id, (e.heap incoming).id, tradePrice, (e.heap incoming).quantity⟩
  rw [sub_self] at hframe
  refine ⟨_, _, ?_, ⟨hengine, hqueued, fun s hs => ?_, fun s hs => ?_⟩, rfl, rfl, hframe, hr, ho⟩
  · have hne :
        ((traded e incoming o tradePrice (e.heap incoming).quantity).heap o).quantity ≠ 0 := by
      show (reduced e.heap incoming o (e.heap incoming).quantity o).quantity ≠ 0
      rw [ho]
      lia
    rw [tradeHead_eq hm (min_eq_left hlt.le)]
    exact if_neg hne
  · rcases List.mem_cons.mp hs with rfl | hs
    · show 0 < (reduced e.heap incoming s (e.heap incoming).quantity s).quantity
      rw [ho]
      lia
    · show 0 < (reduced e.heap incoming o (e.heap incoming).quantity s).quantity
      rw [hr s hs]
      exact hm.positive s (by simp [hs])
  · exact (hframe.inside s hs).2.2.trans (hm.prices s hs)

end Trade

/-! ## The loop over one level -/

/-- What a sweep over the queue `q` does: `q'` is what is left of the queue. -/
structure Swept (incoming : OrderRef) (q q' : List OrderRef) (s : Sweep)
    (e e' : Engine poolCapacity) : Prop where
  suffix : q' <:+ q
  fills : e'.fills = e.fills ++ s.fills
  rest : q'.map (restingOf e'.heap) = s.rest
  frame : TradeFrame incoming q s.left e.heap e'.heap

/-- The sweep that `matchAgainstLevel` performs: all orders of a level cross if the first does. -/
def levelSweep (h : Heap) (incoming : OrderRef) (q : List OrderRef) : Sweep :=
  sweep (fun _ => true) (h incoming).id (h incoming).quantity (q.map (restingOf h))

section MatchLevel

variable {e : Engine poolCapacity} {incoming : OrderRef} {tradePrice : Price}
  {level : PriceLevel} {q others : List OrderRef}

/-- The loop ends if there is nothing left to trade. -/
theorem matchAgainstLevel_stop {fuel : Nat} (hm : InMatch e incoming tradePrice level q others)
    (hfuel : 0 < fuel) (hstop : ¬ 0 < (e.heap incoming).quantity ∨ q = []) :
    Engine.matchAgainstLevel incoming tradePrice fuel e level = .ok (e, level) ∧
      Swept incoming q q (levelSweep e.heap incoming q) e e := by
  have hsweep : levelSweep e.heap incoming q =
      ⟨[], (e.heap incoming).quantity, q.map (restingOf e.heap)⟩ := by
    rcases hstop with hqty | rfl
    · exact sweep_of_nonpos hqty _
    · rfl
  have hrun : ¬ ((e.heap incoming).quantity > 0 ∧ level.empty = false) := by
    rintro ⟨hqty, hempty⟩
    rcases hstop with hnot | hnil
    · exact hnot hqty
    · rw [hm.queued.empty_iff.mpr hnil] at hempty
      cases hempty
  obtain ⟨fuel, rfl⟩ := Nat.exists_eq_add_one_of_ne_zero hfuel.ne'
  refine ⟨if_neg hrun, ?_⟩
  rw [hsweep]
  exact ⟨List.suffix_refl q, (List.append_nil _).symm, rfl, rfl, fun _ _ _ => rfl,
    fun _ _ => ⟨rfl, rfl, rfl⟩⟩

/-- `matchAgainstLevel` sweeps the queue of its level, and ends within its bound. -/
theorem matchAgainstLevel_spec {fuel : Nat} (hm : InMatch e incoming tradePrice level q others)
    (hfuel : q.length < fuel) :
    ∃ e' level' q', Engine.matchAgainstLevel incoming tradePrice fuel e level = .ok (e', level') ∧
      InMatch e' incoming tradePrice level' q' others ∧ level'.price = level.price ∧
      Swept incoming q q' (levelSweep e.heap incoming q) e e' := by
  induction q generalizing fuel e level with
  | nil =>
      obtain ⟨hrun, hswept⟩ := matchAgainstLevel_stop hm hfuel (Or.inr rfl)
      exact ⟨e, level, [], hrun, hm, rfl, hswept⟩
  | cons o r ih =>
      by_cases hqty : 0 < (e.heap incoming).quantity
      swap
      · obtain ⟨hrun, hswept⟩ := matchAgainstLevel_stop hm (show 0 < fuel by omega) (Or.inl hqty)
        exact ⟨e, level, o :: r, hrun, hm, rfl, hswept⟩
      rw [List.length_cons] at hfuel
      obtain ⟨fuel, rfl⟩ := Nat.exists_eq_add_one_of_ne_zero (show fuel ≠ 0 by omega)
      have hhead : level.head = some o := hm.queued.head_eq
      have hempty : level.empty = false := by rw [PriceLevel.empty, hhead]; rfl
      have hstep : ∀ {e₁ level₁}, e.tradeHead incoming level o tradePrice = .ok (e₁, level₁) →
          Engine.matchAgainstLevel incoming tradePrice (fuel + 1) e level =
            Engine.matchAgainstLevel incoming tradePrice fuel e₁ level₁ := by
        intro e₁ level₁ htrade
        rw [Engine.matchAgainstLevel, if_pos ⟨hqty, hempty⟩, hhead]
        show (e.tradeHead incoming level o tradePrice >>= _) = _
        rw [htrade]
        rfl
      have hprice := hm.prices o (by simp)
      have hinc := hm.incoming_notMem
      rcases lt_or_ge (e.heap incoming).quantity (e.heap o).quantity with hlt | hge
      · -- the incoming order is filled, and the next iteration ends the loop
        obtain ⟨e₁, level₁, htrade, hm₁, hprice₁, hfills₁, hframe₁, hr₁, ho₁⟩ :=
          tradeHead_partly hm hlt
        have hzero : ¬ 0 < (e₁.heap incoming).quantity := by
          rw [hframe₁.taker]
          exact lt_irrefl _
        obtain ⟨hrun, -⟩ := matchAgainstLevel_stop hm₁ (show 0 < fuel by omega) (Or.inl hzero)
        refine ⟨e₁, level₁, o :: r, (hstep htrade).trans hrun, hm₁, hprice₁, ?_⟩
        have hsweep : levelSweep e.heap incoming (o :: r) =
            ⟨[⟨(e.heap o).id, (e.heap incoming).id, (e.heap o).price, (e.heap incoming).quantity⟩],
              0, (o :: r).map (restingOf e₁.heap)⟩ := by
          have hmap : r.map (restingOf e₁.heap) = r.map (restingOf e.heap) :=
            List.map_congr_left fun s hs => by rw [restingOf, hr₁ s hs, restingOf]
          rw [List.map_cons, hmap, restingOf, ho₁]
          exact sweep_cons_partly hqty rfl hlt
        rw [hsweep, hprice]
        exact ⟨List.suffix_refl _, hfills₁, rfl, hframe₁⟩
      · -- the resting order is filled, and the loop goes on with the rest of the queue
        obtain ⟨e₁, level₁, htrade, hm₁, hprice₁, hfills₁, hframe₁, hbody₁⟩ :=
          tradeHead_filled hm hge
        obtain ⟨e', level', q', hrun, hm', hprice', hswept⟩ :=
          ih hm₁ (show r.length < fuel by omega)
        refine ⟨e', level', q', (hstep htrade).trans hrun, hm', hprice'.trans hprice₁, ?_⟩
        have hsweep : levelSweep e.heap incoming (o :: r) =
            { levelSweep e₁.heap incoming r with
              fills := ⟨(e.heap o).id, (e.heap incoming).id, (e.heap o).price,
                (e.heap o).quantity⟩ :: (levelSweep e₁.heap incoming r).fills } := by
          have hmap : r.map (restingOf e₁.heap) = r.map (restingOf e.heap) :=
            List.map_congr_left fun s hs => restingOf_congr (hbody₁ s hs)
          rw [levelSweep, levelSweep, hframe₁.taker, hmap]
          exact sweep_cons_filled hqty rfl hge
        rw [hsweep, hprice]
        refine ⟨hswept.suffix.trans (List.suffix_cons o r), ?_, hswept.rest,
          hframe₁.trans hswept.frame (fun s hs => by simp [hs]) hinc⟩
        rw [hswept.fills, hfills₁, List.append_assoc, List.singleton_append]

end MatchLevel

end LimitOrderBook
