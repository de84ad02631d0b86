import LimitOrderBook.Book.MapModel
import LimitOrderBook.Book.Matching

/-!
# One side of the map-backed book

A `Shelf` is an entry of the map with the queue that its links spell out. `SideOk` says that a map
is made up of shelves in order; the slots of the shelves, one after the other, are the resting
orders of the side in the order in which they trade.

`matchLoop_spec`, `pushTo_spec` and `removeFromBook_spec` describe what the operations on a side
do to its slots: a sweep, a push behind all orders that are not worse, and a removal.
-/

namespace LimitOrderBook

open OrderedMap (Sorted)

open PriceLevel

/-- An entry of the map, and the queue of its level. -/
structure Shelf where
  price : Price
  level : PriceLevel
  queue : List OrderRef

namespace Shelf

/-- The entry of the map. -/
def entry (x : Shelf) : Price × PriceLevel := (x.price, x.level)

/-- The links spell out the queue, which is not empty, and each order in it belongs there. -/
structure Ok (isBid : Bool) (h : Heap) (x : Shelf) : Prop where
  queued : Queued h x.level x.queue
  nonempty : x.queue ≠ []
  prices : ∀ o ∈ x.queue, (h o).price = x.price
  sides : ∀ o ∈ x.queue, (h o).side = .buy ↔ isBid = true
  positive : ∀ o ∈ x.queue, 0 < (h o).quantity

/-- A shelf is untouched by a change of orders outside its queue. -/
theorem Ok.frame {isBid : Bool} {h h' : Heap} {x : Shelf} (hx : x.Ok isBid h)
    (hframe : ∀ o ∈ x.queue, h' o = h o) : x.Ok isBid h' :=
  ⟨hx.queued.frame hframe, hx.nonempty, fun o ho => by rw [hframe o ho]; exact hx.prices o ho,
    fun o ho => by rw [hframe o ho]; exact hx.sides o ho,
    fun o ho => by rw [hframe o ho]; exact hx.positive o ho⟩

end Shelf

/-- The slots of the shelves, best price first. -/
def slots (s : List Shelf) : List OrderRef := s.flatMap Shelf.queue

@[simp] theorem slots_nil : slots [] = [] := rfl

@[simp] theorem slots_cons (x : Shelf) (s : List Shelf) : slots (x :: s) = x.queue ++ slots s :=
  List.flatMap_cons

@[simp] theorem slots_append (s t : List Shelf) : slots (s ++ t) = slots s ++ slots t :=
  List.flatMap_append

/-- The slots of a shelf are slots of the side. -/
theorem mem_slots {s : List Shelf} {o : OrderRef} :
    o ∈ slots s ↔ ∃ x ∈ s, o ∈ x.queue := List.mem_flatMap

/-- The map is made up of the shelves. -/
structure SideOk (isBid : Bool) (h : Heap) (levels : MapLevels) (s : List Shelf) : Prop where
  entries : levels = s.map Shelf.entry
  sorted : Sorted (better isBid) levels
  shelves : ∀ x ∈ s, x.Ok isBid h

namespace SideOk

variable {isBid : Bool} {h : Heap} {levels : MapLevels} {s : List Shelf}

/-- An empty map has no shelves. -/
theorem nil : SideOk isBid h [] [] := ⟨rfl, List.Pairwise.nil, fun _ hx => by cases hx⟩

/-- A side is untouched by a change of orders outside it. -/
theorem frame {h' : Heap} (hs : SideOk isBid h levels s)
    (hframe : ∀ o ∈ slots s, h' o = h o) : SideOk isBid h' levels s :=
  ⟨hs.entries, hs.sorted, fun x hx =>
    (hs.shelves x hx).frame fun o ho => hframe o (mem_slots.mpr ⟨x, hx, ho⟩)⟩

/-- There are at most as many shelves as orders on them. -/
theorem length_le (hs : SideOk isBid h levels s) : s.length ≤ (slots s).length := by
  have hpos : ∀ x ∈ s, 0 < x.queue.length := fun x hx =>
    List.length_pos_iff.mpr (hs.shelves x hx).nonempty
  clear hs
  induction s with
  | nil => exact Nat.zero_le _
  | cons x s ih =>
      have hx := hpos x (by simp)
      have hs := ih fun y hy => hpos y (by simp [hy])
      rw [slots_cons, List.length_append, List.length_cons]
      omega

/-- The orders of a side: positive, and on their own side. -/
theorem order (hs : SideOk isBid h levels s) {o : OrderRef} (ho : o ∈ slots s) :
    0 < (h o).quantity ∧ ((h o).side = .buy ↔ isBid = true) := by
  obtain ⟨x, hx, ho⟩ := mem_slots.mp ho
  exact ⟨(hs.shelves x hx).positive o ho, (hs.shelves x hx).sides o ho⟩

/-- The entries around a shelf, in order. -/
theorem split {x : Shelf} {a b : List Shelf} (hs : SideOk isBid h levels (a ++ x :: b)) :
    levels = a.map Shelf.entry ++ (x.price, x.level) :: b.map Shelf.entry ∧
      Sorted (better isBid) (a.map Shelf.entry ++ (x.price, x.level) :: b.map Shelf.entry) := by
  have hentries := hs.entries
  rw [List.map_append, List.map_cons] at hentries
  have hsorted := hs.sorted
  rw [hentries] at hsorted
  exact ⟨hentries, hsorted⟩

/-- The orders before a shelf are better and those behind it are worse. -/
theorem around {x : Shelf} {a b : List Shelf} (hs : SideOk isBid h levels (a ++ x :: b)) :
    (∀ o ∈ slots a, better isBid (h o).price x.price = true) ∧
      ∀ o ∈ slots b, worse isBid (h o).price x.price = true := by
  obtain ⟨-, hsorted⟩ := hs.split
  obtain ⟨-, hb, hab⟩ := List.pairwise_append.mp hsorted
  refine ⟨fun o ho => ?_, fun o ho => ?_⟩
  · obtain ⟨y, hy, ho⟩ := mem_slots.mp ho
    rw [(hs.shelves y (by simp [hy])).prices o ho]
    exact hab y.entry (List.mem_map_of_mem hy) (x.price, x.level) (by simp)
  · obtain ⟨y, hy, ho⟩ := mem_slots.mp ho
    rw [(hs.shelves y (by simp [hy])).prices o ho, ← better_eq]
    exact (List.pairwise_cons.mp hb).1 y.entry (List.mem_map_of_mem hy)

/-- Writing a shelf over the entry at its price. -/
theorem place {y : Shelf} {a b : List Shelf} {h' : Heap} {level : PriceLevel}
    (hentries : levels = a.map Shelf.entry ++ (y.price, level) :: b.map Shelf.entry)
    (hsorted : Sorted (better isBid) levels) (hab : ∀ z ∈ a ++ b, z.Ok isBid h)
    (hy : y.Ok isBid h') (hframe : ∀ o ∈ slots a ++ slots b, h' o = h o) :
    SideOk isBid h' (OrderedMap.set levels y.price y.level) (a ++ y :: b) := by
  have hset : OrderedMap.set levels y.price y.level =
      a.map Shelf.entry ++ (y.price, y.level) :: b.map Shelf.entry := by
    have hs := hsorted
    rw [hentries] at hs
    rw [hentries, hs.set_middle (better_strict isBid)]
  refine ⟨?_, hsorted.set _ _, fun z hz => ?_⟩
  · rw [hset, List.map_append, List.map_cons]
    rfl
  · rcases List.mem_append.mp hz with hz | hz
    · exact (hab z (by simp [hz])).frame fun o ho =>
        hframe o (List.mem_append.mpr (Or.inl (mem_slots.mpr ⟨z, hz, ho⟩)))
    · rcases List.mem_cons.mp hz with rfl | hz
      · exact hy
      · exact (hab z (by simp [hz])).frame fun o ho =>
          hframe o (List.mem_append.mpr (Or.inr (mem_slots.mpr ⟨z, hz, ho⟩)))

/-- Another shelf at the same price in the place of one. -/
theorem replace {x y : Shelf} {a b : List Shelf} {h' : Heap}
    (hs : SideOk isBid h levels (a ++ x :: b)) (hprice : y.price = x.price) (hy : y.Ok isBid h')
    (hframe : ∀ o ∈ slots a ++ slots b, h' o = h o) :
    SideOk isBid h' (OrderedMap.set levels x.price y.level) (a ++ y :: b) := by
  rw [← hprice]
  refine place (show levels = _ ++ (_, x.level) :: _ from ?_) hs.sorted
    (fun z hz => hs.shelves z ?_) hy hframe
  · rw [hprice]
    exact hs.split.1
  · simp only [List.mem_append, List.mem_cons] at hz ⊢
    tauto

/-- A shelf is taken away. -/
theorem delete {x : Shelf} {a b : List Shelf} {h' : Heap} (level : PriceLevel)
    (hs : SideOk isBid h levels (a ++ x :: b)) (hframe : ∀ o ∈ slots a ++ slots b, h' o = h o) :
    SideOk isBid h' (OrderedMap.erase (OrderedMap.set levels x.price level) x.price) (a ++ b) := by
  obtain ⟨hentries, hsorted⟩ := hs.split
  refine ⟨?_, (hs.sorted.set _ _).erase _, fun z hz => ?_⟩
  · rw [OrderedMap.erase_set, hentries, hsorted.erase_middle (better_strict isBid), List.map_append]
  · rcases List.mem_append.mp hz with hz | hz
    · exact (hs.shelves z (by simp [hz])).frame fun o ho =>
        hframe o (List.mem_append.mpr (Or.inl (mem_slots.mpr ⟨z, hz, ho⟩)))
    · exact (hs.shelves z (by simp [hz])).frame fun o ho =>
        hframe o (List.mem_append.mpr (Or.inr (mem_slots.mpr ⟨z, hz, ho⟩)))

end SideOk

/-! ## Matching -/

/-- The sweep of an incoming order over one side: the orders cross that are not worse than its
limit. -/
def sideSweep (isBid : Bool) (h : Heap) (incoming : OrderRef) (q : List OrderRef) : Sweep :=
  sweep (fun p => !worse isBid p (h incoming).price) (h incoming).id (h incoming).quantity
    (q.map (restingOf h))

section Match

variable {poolCapacity : Nat} {isBid : Bool} {e e₁ e' : Engine poolCapacity} {incoming : OrderRef}
  {levels : MapLevels} {x : Shelf} {s : List Shelf} {q q₁ r r' others : List OrderRef}

/-- A level is swept in full and the sweep goes on. -/
theorem Swept.go {t u : Sweep} (h₁ : Swept incoming q [] t e e₁) (h₂ : Swept incoming r r' u e₁ e')
    (hinc : incoming ∉ q ++ r) :
    Swept incoming (q ++ r) r' { u with fills := t.fills ++ u.fills } e e' := by
  refine ⟨h₂.suffix.trans (List.suffix_append q r), ?_, h₂.rest, ?_⟩
  · rw [h₂.fills, h₁.fills, List.append_assoc]
  · exact (h₁.frame.mono (fun s hs => by simp [hs]) hinc).trans h₂.frame
      (fun s hs => by simp [hs]) hinc

/-- A sweep ends within a level. -/
theorem Swept.stop {t : Sweep} (h₁ : Swept incoming q q₁ t e e')
    (hinc : incoming ∉ q ++ r) (hframe : ∀ o ∈ r, e'.heap o = e.heap o) :
    Swept incoming (q ++ r) (q₁ ++ r)
      { t with rest := t.rest ++ r.map (restingOf e.heap) } e e' := by
  obtain ⟨p, hp⟩ := h₁.suffix
  refine ⟨⟨p, by rw [← hp, List.append_assoc]⟩, h₁.fills, ?_,
    h₁.frame.mono (fun s hs => by simp [hs]) hinc⟩
  rw [List.map_append, h₁.rest]
  congr 1
  exact List.map_congr_left fun o ho => by rw [restingOf, hframe o ho, restingOf]

/-- A sweep that does not begin. -/
theorem Swept.none (hstop : sideSweep isBid e.heap incoming q =
      ⟨[], (e.heap incoming).quantity, q.map (restingOf e.heap)⟩) :
    Swept incoming q q (sideSweep isBid e.heap incoming q) e e := by
  rw [hstop]
  exact ⟨List.suffix_refl q, (List.append_nil _).symm, rfl, rfl, fun _ _ _ => rfl,
    fun _ _ => ⟨rfl, rfl, rfl⟩⟩

/-- On a shelf that crosses, the sweep of the side is the sweep of the level: all orders of the
shelf have its price. -/
theorem sideSweep_shelf (hx : x.Ok isBid e.heap)
    (hcross : worse isBid x.price (e.heap incoming).price = false) :
    sideSweep isBid e.heap incoming x.queue = levelSweep e.heap incoming x.queue := by
  refine sweep_congr fun y hy => ?_
  obtain ⟨o, ho, rfl⟩ := List.mem_map.mp hy
  show (!worse isBid (e.heap o).price (e.heap incoming).price) = true
  rw [hx.prices o ho, hcross]
  rfl

/-- The sweep does not begin if the best price does not cross. -/
theorem sideSweep_of_worse (hx : x.Ok isBid e.heap)
    (hworse : worse isBid x.price (e.heap incoming).price = true) :
    sideSweep isBid e.heap incoming (slots (x :: s)) =
      ⟨[], (e.heap incoming).quantity, (slots (x :: s)).map (restingOf e.heap)⟩ := by
  obtain ⟨o, r, hqueue⟩ := List.exists_cons_of_ne_nil hx.nonempty
  rw [sideSweep, slots_cons, hqueue, List.cons_append, List.map_cons]
  refine sweep_cons_stop fun h => ?_
  have hcross := h.2
  rw [restingOf, hx.prices o (by simp [hqueue]), hworse] at hcross
  cases hcross

/-- A sweep that clears the first shelf goes on with the next one. -/
theorem Swept.clear_shelf (hx : x.Ok isBid e.heap)
    (hcross : worse isBid x.price (e.heap incoming).price = false)
    (hinc : incoming ∉ x.queue ++ slots s) (hframe : ∀ o ∈ slots s, e₁.heap o = e.heap o)
    (h₁ : Swept incoming x.queue [] (levelSweep e.heap incoming x.queue) e e₁)
    (h₂ : Swept incoming (slots s) q (sideSweep isBid e₁.heap incoming (slots s)) e₁ e') :
    Swept incoming (slots (x :: s)) q (sideSweep isBid e.heap incoming (slots (x :: s))) e e' := by
  have hshelf := sideSweep_shelf hx hcross
  have hrest : (sideSweep isBid e.heap incoming x.queue).rest = [] := by
    rw [hshelf, ← h₁.rest]
    rfl
  have hsweep : sideSweep isBid e.heap incoming (slots (x :: s)) =
      { sideSweep isBid e₁.heap incoming (slots s) with
        fills := (levelSweep e.heap incoming x.queue).fills ++
          (sideSweep isBid e₁.heap incoming (slots s)).fills } := by
    rw [sideSweep, slots_cons, List.map_append, sweep_append_go hrest, ← sideSweep, hshelf,
      sideSweep, h₁.frame.taker,
      List.map_congr_left fun o ho => show restingOf e₁.heap o = restingOf e.heap o by
        rw [restingOf, hframe o ho, restingOf]]
  rw [hsweep, slots_cons]
  exact h₁.go h₂ hinc

/-- A sweep that leaves orders on the first shelf ends there. -/
theorem Swept.stop_shelf (hx : x.Ok isBid e.heap)
    (hcross : worse isBid x.price (e.heap incoming).price = false)
    (hinc : incoming ∉ x.queue ++ slots s) (hframe : ∀ o ∈ slots s, e₁.heap o = e.heap o)
    (hne : q₁ ≠ []) (h₁ : Swept incoming x.queue q₁ (levelSweep e.heap incoming x.queue) e e₁) :
    Swept incoming (slots (x :: s)) (q₁ ++ slots s)
      (sideSweep isBid e.heap incoming (slots (x :: s))) e e₁ := by
  have hshelf := sideSweep_shelf hx hcross
  have hrest : (sideSweep isBid e.heap incoming x.queue).rest ≠ [] := by
    rw [hshelf, ← h₁.rest]
    simpa using hne
  have hsweep : sideSweep isBid e.heap incoming (slots (x :: s)) =
      { levelSweep e.heap incoming x.queue with
        rest := (levelSweep e.heap incoming x.queue).rest ++
          (slots s).map (restingOf e.heap) } := by
    rw [sideSweep, slots_cons, List.map_append, sweep_append_stop hrest, ← sideSweep, hshelf]
  rw [hsweep, slots_cons]
  exact h₁.stop hinc hframe

/-- The loop ends if nothing is left of the incoming order. -/
theorem matchLoop_filled {fuel : Nat} (hqty : ¬ 0 < (e.heap incoming).quantity) :
    MapOrderBook.matchLoop isBid incoming (fuel + 1) e levels = .ok (e, levels) := by
  unfold MapOrderBook.matchLoop
  exact if_neg hqty

/-- The loop ends on an empty side. -/
theorem matchLoop_nil {fuel : Nat} :
    MapOrderBook.matchLoop isBid incoming (fuel + 1) e [] = .ok (e, []) := by
  unfold MapOrderBook.matchLoop
  split <;> rfl

/-- An iteration of the loop over a side with a best level. -/
theorem matchLoop_cons {fuel : Nat} {price : Price} {level : PriceLevel} {m : MapLevels}
    (hqty : 0 < (e.heap incoming).quantity) :
    MapOrderBook.matchLoop isBid incoming (fuel + 1) e ((price, level) :: m) =
      (if worse isBid price (e.heap incoming).price then .ok (e, (price, level) :: m)
       else do
         let (e, level') ← Engine.matchAgainstLevel incoming price
           (Engine.loopBound poolCapacity) e level
         let levels := OrderedMap.set ((price, level) :: m) price level'
         MapOrderBook.matchLoop isBid incoming fuel e
           (if level'.empty then OrderedMap.erase levels price else levels)) := by
  conv_lhs => unfold MapOrderBook.matchLoop
  rw [if_pos hqty]
  rfl

/-- Matching against the first shelf. If orders are left on it, nothing is left of the incoming
one. -/
theorem matchShelf_spec (hside : SideOk isBid e.heap levels (x :: s))
    (hok : EngineOk e [incoming] (slots (x :: s) ++ others)) :
    ∃ e₁ level₁ q₁,
      Engine.matchAgainstLevel incoming x.price (Engine.loopBound poolCapacity) e x.level =
        .ok (e₁, level₁) ∧
      EngineOk e₁ [incoming] (q₁ ++ (slots s ++ others)) ∧
      Swept incoming x.queue q₁ (levelSweep e.heap incoming x.queue) e e₁ ∧
      Queued e₁.heap level₁ q₁ ∧
      (q₁ ≠ [] → Shelf.Ok isBid e₁.heap ⟨x.price, level₁, q₁⟩ ∧
        ¬ 0 < (e₁.heap incoming).quantity) ∧
      (e₁.heap incoming).quantity ≤ (e.heap incoming).quantity ∧
      ∀ o ∈ slots s, e₁.heap o = e.heap o := by
  have hx := hside.shelves x (by simp)
  rw [slots_cons, List.append_assoc] at hok
  have hm : InMatch e incoming x.price x.level x.queue (slots s ++ others) :=
    ⟨hok, hx.queued, hx.positive, hx.prices⟩
  have hlen := hok.length_eq
  rw [List.length_singleton, List.length_append] at hlen
  obtain ⟨e₁, level₁, q₁, hrun, hm₁, -, hswept⟩ := matchAgainstLevel_spec hm
    (show x.queue.length < Engine.loopBound poolCapacity by unfold Engine.loopBound; omega)
  have hdisj := (List.nodup_append.mp hok.nodup_live).2.2
  refine ⟨e₁, level₁, q₁, hrun, hm₁.engine, hswept, hm₁.queued, fun hne => ⟨?_, ?_⟩, ?_,
    fun o ho => ?_⟩
  · refine ⟨hm₁.queued, hne, hm₁.prices, fun o ho => ?_, hm₁.positive⟩
    have hmem := hswept.suffix.subset ho
    rw [(hswept.frame.inside o hmem).2.1]
    exact hx.sides o hmem
  · rw [hswept.frame.taker]
    obtain ⟨o₁, r₁, rfl⟩ := List.exists_cons_of_ne_nil hne
    -- a sweep that takes every price leaves orders only if nothing is left of the taker
    have hstop : ¬ 0 < (levelSweep e.heap incoming x.queue).left ∨
        ∀ y, (levelSweep e.heap incoming x.queue).rest.head? = some y → true = false :=
      sweep_stop _
    rw [← hswept.rest] at hstop
    exact hstop.resolve_right fun h => Bool.noConfusion (h _ rfl)
  · rw [hswept.frame.taker]
    refine sweep_left_le fun y hy => ?_
    obtain ⟨o, ho, rfl⟩ := List.mem_map.mp hy
    exact hx.positive o ho
  · refine hswept.frame.outside o ?_ fun hmem => hdisj o hmem o (by simp [ho]) rfl
    exact ne_of_mem_of_not_mem (show o ∈ x.queue ++ (slots s ++ others) by simp [ho])
      hok.notMem_live

/-- `matchLoop` sweeps the side, and ends within its bound. -/
theorem matchLoop_spec {fuel : Nat} (hside : SideOk isBid e.heap levels s)
    (hok : EngineOk e [incoming] (slots s ++ others)) (hfuel : s.length < fuel) :
    ∃ e' levels' s', MapOrderBook.matchLoop isBid incoming fuel e levels = .ok (e', levels') ∧
      SideOk isBid e'.heap levels' s' ∧ EngineOk e' [incoming] (slots s' ++ others) ∧
      Swept incoming (slots s) (slots s') (sideSweep isBid e.heap incoming (slots s)) e e' := by
  induction s generalizing fuel e levels with
  | nil =>
      obtain ⟨fuel, rfl⟩ := Nat.exists_eq_add_one_of_ne_zero (show fuel ≠ 0 by omega)
      refine ⟨e, levels, [], ?_, hside, hok, Swept.none rfl⟩
      rw [show levels = [] from hside.entries]
      exact matchLoop_nil
  | cons x s ih =>
      rw [List.length_cons] at hfuel
      obtain ⟨fuel, rfl⟩ := Nat.exists_eq_add_one_of_ne_zero (show fuel ≠ 0 by omega)
      have hlevels : levels = (x.price, x.level) :: s.map Shelf.entry := hside.entries
      have hx := hside.shelves x (by simp)
      have hinc : incoming ∉ x.queue ++ slots s := fun hmem =>
        hok.notMem_live (by simp only [slots_cons]; simp only [List.mem_append] at hmem ⊢; tauto)
      by_cases hqty : 0 < (e.heap incoming).quantity
      swap
      · -- nothing is left of the incoming order
        exact ⟨e, levels, x :: s, matchLoop_filled hqty, hside, hok,
          Swept.none (sweep_of_nonpos hqty _)⟩
      by_cases hworse : worse isBid x.price (e.heap incoming).price = true
      · -- the best price does not cross
        refine ⟨e, levels, x :: s, ?_, hside, hok, Swept.none (sideSweep_of_worse hx hworse)⟩
        rw [hlevels, matchLoop_cons hqty]
        exact if_pos hworse
      rw [Bool.not_eq_true] at hworse
      obtain ⟨e₁, level₁, q₁, hrun, hok₁, hswept, hqueued, hshelf, -, hframe⟩ :=
        matchShelf_spec hside hok
      have hstep : MapOrderBook.matchLoop isBid incoming (fuel + 1) e levels =
          MapOrderBook.matchLoop isBid incoming fuel e₁
            (if level₁.empty then OrderedMap.erase (OrderedMap.set levels x.price level₁) x.price
              else OrderedMap.set levels x.price level₁) := by
        rw [hlevels, matchLoop_cons hqty, hworse, if_neg Bool.false_ne_true, hrun]
        rfl
      by_cases hnil : q₁ = []
      · -- the shelf is cleared, and the loop goes on with the next one
        subst hnil
        have hempty : level₁.empty = true := hqueued.empty_iff.mpr rfl
        have hside₁ : SideOk isBid e₁.heap
            (OrderedMap.erase (OrderedMap.set levels x.price level₁) x.price) s :=
          hside.delete (a := []) level₁ (by simpa using hframe)
        obtain ⟨e', levels', s', hrun', hside', hok', hswept'⟩ :=
          ih hside₁ (by simpa using hok₁) (show s.length < fuel by omega)
        refine ⟨e', levels', s', ?_, hside', hok', hswept.clear_shelf hx hworse hinc hframe hswept'⟩
        rw [hstep, if_pos hempty]
        exact hrun'
      · -- the incoming order is used up within the shelf, and the next iteration ends the loop
        have hempty : level₁.empty = false := by
          rw [Bool.eq_false_iff]
          exact fun h => hnil (hqueued.empty_iff.mp h)
        obtain ⟨hshelf, hleft⟩ := hshelf hnil
        obtain ⟨fuel, rfl⟩ := Nat.exists_eq_add_one_of_ne_zero (show fuel ≠ 0 by omega)
        refine ⟨e₁, OrderedMap.set levels x.price level₁, ⟨x.price, level₁, q₁⟩ :: s,
          ?_, ?_, ?_, ?_⟩
        · rw [hstep, if_neg (by simp [hempty])]
          exact matchLoop_filled hleft
        · exact hside.replace (a := []) (y := ⟨x.price, level₁, q₁⟩) rfl hshelf
            (by simpa using hframe)
        · simpa using hok₁
        · rw [slots_cons]
          exact hswept.stop_shelf hx hworse hinc hframe hnil

end Match

/-! ## Adding and removing an order -/

section Edit

variable {poolCapacity : Nat} {isBid : Bool} {e : Engine poolCapacity} {o : OrderRef}
  {levels : MapLevels} {s : List Shelf}

/-- Where the level of a price is, or where it goes. -/
theorem SideOk.locate {h : Heap} (hside : SideOk isBid h levels s) (p : Price) :
    ∃ a b q level, Queued h level q ∧ slots s = slots a ++ (q ++ slots b) ∧
      (∀ t ∈ q, (h t).price = p ∧ ((h t).side = .buy ↔ isBid = true) ∧ 0 < (h t).quantity) ∧
      OrderedMap.touch (better isBid) levels p {} =
        a.map Shelf.entry ++ (p, level) :: b.map Shelf.entry ∧
      ∀ x ∈ a ++ b, x ∈ s := by
  cases hfind : OrderedMap.find levels p with
  | some level =>
      -- there is a shelf at the price
      have hmem := (hside.sorted.find_eq_some (better_strict isBid)).mp hfind
      rw [hside.entries] at hmem
      obtain ⟨x, hx, hentry⟩ := List.mem_map.mp hmem
      obtain ⟨a, b, rfl⟩ := List.append_of_mem hx
      obtain ⟨rfl, rfl⟩ := Prod.mk.inj hentry
      have hok := hside.shelves x hx
      refine ⟨a, b, x.queue, x.level, hok.queued, by simp, fun t ht =>
        ⟨hok.prices t ht, hok.sides t ht, hok.positive t ht⟩, ?_, fun y hy => ?_⟩
      · rw [OrderedMap.touch_of_present hfind]
        exact hside.split.1
      · simp only [List.mem_append, List.mem_cons] at hy ⊢
        tauto
  | none =>
      -- a new level goes behind the better ones
      refine ⟨s.takeWhile fun x => better isBid x.price p,
        s.dropWhile fun x => better isBid x.price p,
        [], {}, queued_nil, ?_, (fun t ht => by cases ht), ?_, fun x hx => ?_⟩
      · rw [List.nil_append, ← slots_append, List.takeWhile_append_dropWhile]
      · unfold OrderedMap.touch
        rw [hfind, hside.entries, List.takeWhile_map, List.dropWhile_map]
        rfl
      · rw [List.takeWhile_append_dropWhile] at hx
        exact hx

/-- `pushTo` puts an order behind all orders of the side that are not worse. -/
theorem pushTo_spec (hside : SideOk isBid e.heap levels s) (ho : o ∉ slots s)
    (hnodup : (slots s).Nodup) (hqty : 0 < (e.heap o).quantity)
    (hbuy : (e.heap o).side = .buy ↔ isBid = true) :
    ∃ h' levels' s' l r, MapOrderBook.pushTo isBid e levels o = (e.setHeap h', levels') ∧
      SideOk isBid h' levels' s' ∧ SameBodies e.heap h' ∧
      (∀ t ∉ slots s, t ≠ o → h' t = e.heap t) ∧
      slots s = l ++ r ∧ slots s' = l ++ o :: r ∧
      (∀ t ∈ l, worse isBid (e.heap t).price (e.heap o).price = false) ∧
      ∀ t ∈ r, worse isBid (e.heap t).price (e.heap o).price = true := by
  obtain ⟨a, b, q, level, hqueued, hslots, hq, htouch, hsub⟩ := hside.locate (e.heap o).price
  have hsorted := hside.sorted.touch (better_strict isBid) (e.heap o).price {}
  have hfind : OrderedMap.find (OrderedMap.touch (better isBid) levels (e.heap o).price {})
      (e.heap o).price = some level :=
    (hsorted.find_eq_some (better_strict isBid)).mpr (by rw [htouch]; simp)
  have hoq : o ∉ q := fun hmem => ho (by rw [hslots]; simp [hmem])
  obtain ⟨hqueued', -, hbodies, hframe⟩ := pushBack_spec hqueued hoq
  -- the orders of the other shelves are not in the queue
  have hother : ∀ t ∈ slots a ++ slots b, t ∉ q ∧ t ≠ o := by
    intro t ht
    rw [hslots] at hnodup ho
    have hdisj := List.nodup_append.mp hnodup
    refine ⟨fun htq => ?_, fun hto => ho ?_⟩
    swap
    · rw [← hto]
      simp only [List.mem_append] at ht ⊢
      tauto
    rcases List.mem_append.mp ht with ht | ht
    · exact hdisj.2.2 t ht t (by simp [htq]) rfl
    · exact (List.nodup_append.mp hdisj.2.1).2.2 t htq t ht rfl
  have hshelf : Shelf.Ok isBid (pushBack e.heap level o).1
      ⟨(e.heap o).price, (pushBack e.heap level o).2, q ++ [o]⟩ := by
    have hmem : ∀ t ∈ q ++ [o], (e.heap t).price = (e.heap o).price ∧
        ((e.heap t).side = .buy ↔ isBid = true) ∧ 0 < (e.heap t).quantity := by
      intro t ht
      rcases List.mem_append.mp ht with ht | ht
      · exact hq t ht
      · obtain rfl := List.mem_singleton.mp ht
        exact ⟨rfl, hbuy, hqty⟩
    refine ⟨hqueued', by simp, fun t ht => ?_, fun t ht => ?_, fun t ht => ?_⟩
    · rw [hbodies.price_eq]
      exact (hmem t ht).1
    · rw [hbodies.side_eq]
      exact (hmem t ht).2.1
    · rw [hbodies.quantity_eq]
      exact (hmem t ht).2.2
  have hplace := SideOk.place (h := e.heap) htouch hsorted
    (fun z hz => hside.shelves z (hsub z hz)) hshelf
    (fun t ht => hframe t (hother t ht).1 (hother t ht).2)
  refine ⟨(pushBack e.heap level o).1, _, _, slots a ++ q, slots b, ?_, hplace, hbodies, ?_, ?_, ?_,
    ?_, ?_⟩
  · unfold MapOrderBook.pushTo
    simp only [hfind, Option.getD_some]
  · intro t ht hto
    exact hframe t (fun htq => ht (by rw [hslots]; simp [htq])) hto
  · rw [hslots, List.append_assoc]
  · simp
  · intro t ht
    rcases List.mem_append.mp ht with ht | ht
    · have h := hplace.around.1 t ht
      rw [hbodies.price_eq, better_eq] at h
      exact (worse_strict isBid).asymm h
    · rw [(hq t ht).1]
      exact (worse_strict isBid).irrefl _
  · intro t ht
    have h := hplace.around.2 t ht
    rwa [hbodies.price_eq] at h

/-- `removeFromBook` takes an order out of the side and leaves the others where they are. -/
theorem removeFromBook_spec (hside : SideOk isBid e.heap levels s) (ho : o ∈ slots s)
    (hnodup : (slots s).Nodup) :
    ∃ h' levels' s' l r, MapOrderBook.removeFromBook e levels o = some (e.setHeap h', levels') ∧
      SideOk isBid h' levels' s' ∧ SameBodies e.heap h' ∧
      (∀ t ∉ slots s, h' t = e.heap t) ∧ slots s = l ++ o :: r ∧ slots s' = l ++ r := by
  obtain ⟨x, hx, hox⟩ := mem_slots.mp ho
  obtain ⟨a, b, rfl⟩ := List.append_of_mem hx
  obtain ⟨l, r, hqueue⟩ := List.append_of_mem hox
  have hok := hside.shelves x hx
  have hprice : (e.heap o).price = x.price := hok.prices o hox
  have hfind : OrderedMap.find levels x.price = some x.level := by
    rw [hside.split.1]
    exact hside.split.2.find_middle (better_strict isBid)
  have hqueued := hok.queued
  rw [hqueue] at hqueued
  obtain ⟨hqueued', -, hbodies, -, -, hframe⟩ := remove_spec hqueued
  rw [← hqueue] at hframe
  rw [slots_append, slots_cons] at hnodup
  have hdisj := List.nodup_append.mp hnodup
  have hother : ∀ t ∈ slots a ++ slots b, (remove e.heap x.level o).1 t = e.heap t := by
    intro t ht
    refine hframe t fun htx => ?_
    rcases List.mem_append.mp ht with ht | ht
    · exact hdisj.2.2 t ht t (by simp [htx]) rfl
    · exact (List.nodup_append.mp hdisj.2.1).2.2 t htx t ht rfl
  have hout : ∀ t ∉ slots (a ++ x :: b), (remove e.heap x.level o).1 t = e.heap t :=
    fun t ht => hframe t fun htx => ht (mem_slots.mpr ⟨x, hx, htx⟩)
  have hslots : slots (a ++ x :: b) = (slots a ++ l) ++ o :: (r ++ slots b) := by
    simp [hqueue]
  have hrun : MapOrderBook.removeFromBook e levels o =
      some (e.setHeap (remove e.heap x.level o).1,
        if (remove e.heap x.level o).2.empty then
          OrderedMap.erase (OrderedMap.set levels x.price (remove e.heap x.level o).2) x.price
        else OrderedMap.set levels x.price (remove e.heap x.level o).2) := by
    unfold MapOrderBook.removeFromBook
    simp only [hprice, hfind]
  by_cases hnil : l ++ r = []
  · -- the order was alone in its level
    obtain ⟨rfl, rfl⟩ := List.append_eq_nil_iff.mp hnil
    rw [if_pos (hqueued'.empty_iff.mpr rfl)] at hrun
    exact ⟨_, _, a ++ b, slots a ++ [], [] ++ slots b, hrun, hside.delete _ hother, hbodies, hout,
      hslots, by simp⟩
  · rw [if_neg fun h => hnil (hqueued'.empty_iff.mp h)] at hrun
    have hsub : ∀ t ∈ l ++ r, t ∈ x.queue := fun t ht => by
      rw [hqueue]
      simp only [List.mem_append, List.mem_cons] at ht ⊢
      tauto
    have hshelf : Shelf.Ok isBid (remove e.heap x.level o).1
        ⟨x.price, (remove e.heap x.level o).2, l ++ r⟩ := by
      refine ⟨hqueued', hnil, fun t ht => ?_, fun t ht => ?_, fun t ht => ?_⟩
      · rw [hbodies.price_eq]
        exact hok.prices t (hsub t ht)
      · rw [hbodies.side_eq]
        exact hok.sides t (hsub t ht)
      · rw [hbodies.quantity_eq]
        exact hok.positive t (hsub t ht)
    have hreplace := hside.replace (y := ⟨x.price, _, l ++ r⟩) rfl hshelf hother
    exact ⟨_, _, _, slots a ++ l, r ++ slots b, hrun, hreplace, hbodies, hout, hslots, by simp⟩

end Edit

end LimitOrderBook
