import LimitOrderBook.Book.Independence
import LimitOrderBook.Book.Parts
import LimitOrderBook.Book.Quantities
import LimitOrderBook.Feed.Generator
import LimitOrderBook.Listen.Ingest

/-!
# What the generators make

For every random source: a message of a generated feed is a new order with the next id, or the
cancel of an order that was sent before (`NarrowMessage`, `WideMessage`). In the wide profile no
order is cancelled twice, because `live` holds the ids that have been sent and not cancelled.

A generated file can therefore be replayed: no message is a fault and no id is a duplicate
(`generate_then_replay`).
-/

namespace LimitOrderBook

/-! ## Feeds -/

/-- The ids of the new orders among messages. -/
def addedIds (msgs : List FeedMessage) : List OrderId :=
  (msgs.filter fun m => m.type = .addOrder).map FeedMessage.id

/-- The ids of the cancels among messages. -/
def cancelledIds (msgs : List FeedMessage) : List OrderId :=
  (msgs.filter fun m => m.type = .cancelOrder).map FeedMessage.id

/-- A new order with the next id. -/
structure IsNewOrder (before : List FeedMessage) (m : FeedMessage) : Prop where
  type : m.type = .addOrder
  side : m.side = .buy ∨ m.side = .sell
  id : m.id.toNat = (addedIds before).length + 1
  qty : 1 ≤ m.qty ∧ m.qty ≤ 20

/-- The cancel of an order that was sent before. -/
structure IsCancel (before : List FeedMessage) (m : FeedMessage) : Prop where
  type : m.type = .cancelOrder
  id : m.id ∈ addedIds before

/-- What comes after other messages in the narrow profile. -/
structure NarrowMessage (before : List FeedMessage) (m : FeedMessage) : Prop where
  ts : m.ts.toNat = before.length
  kind : (IsNewOrder before m ∧ 95 ≤ m.price ∧ m.price ≤ 105) ∨ IsCancel before m

/-- What comes after other messages in the wide profile, when the mid is at `mid`. -/
structure WideMessage (depth : Nat) (mid : Price) (before : List FeedMessage) (m : FeedMessage) :
    Prop where
  ts : m.ts.toNat = before.length
  kind : (IsNewOrder before m ∧
      if m.side = .buy then mid - depth ≤ m.price ∧ m.price ≤ mid
      else mid + 1 ≤ m.price ∧ m.price ≤ mid + 1 + depth) ∨
    (IsCancel before m ∧ m.id ∉ cancelledIds before)

/-- Each message is one that may come after those before it. -/
def EachAfter (ok : List FeedMessage → FeedMessage → Prop) (before : List FeedMessage) :
    List FeedMessage → Prop
  | [] => True
  | m :: ms => ok before m ∧ EachAfter ok (before ++ [m]) ms

/-- The same of the wide profile, where every message has the mid of its iteration. -/
def EachAround (depth : Nat) (before : List FeedMessage) :
    List Price → List FeedMessage → Prop
  | [], [] => True
  | mid :: mids, m :: ms =>
      WideMessage depth mid before m ∧ EachAround depth (before ++ [m]) mids ms
  | _, _ => False

/-- The mids of the iterations, after the mid that comes before the first of them: each is a tick
from the last at most. -/
def Drifting (mid : Price) (mids : List Price) : Prop :=
  (mid :: mids).IsChain fun last next => |next - last| ≤ 1

/-- A mid that drifts is within as many ticks of the first one as there are iterations. -/
theorem Drifting.near {mid : Price} {mids : List Price} (h : Drifting mid mids) :
    ∀ x ∈ mids, |x - mid| ≤ mids.length := by
  induction mids generalizing mid with
  | nil => intro x hx; cases hx
  | cons next mids ih =>
      obtain ⟨hstep, hrest⟩ := List.isChain_cons_cons.mp h
      intro x hx
      rw [List.length_cons]
      rw [abs_le] at hstep
      rcases List.mem_cons.mp hx with rfl | hx
      · rw [abs_le]
        lia
      · have hnear := ih hrest x hx
        rw [abs_le] at hnear ⊢
        lia

section Ids

variable {before : List FeedMessage} {m : FeedMessage}

/-- One more new order. -/
theorem addedIds_snoc_add (h : m.type = .addOrder) :
    addedIds (before ++ [m]) = addedIds before ++ [m.id] := by
  rw [addedIds, List.filter_append, List.filter_cons_of_pos (by simpa using h), List.map_append]
  rfl

/-- One more cancel. -/
theorem addedIds_snoc_cancel (h : m.type = .cancelOrder) :
    addedIds (before ++ [m]) = addedIds before := by
  rw [addedIds, List.filter_append, List.filter_cons_of_neg (by rw [h]; decide), List.filter_nil,
    List.append_nil, addedIds]

/-- One more new order is not a cancel. -/
theorem cancelledIds_snoc_add (h : m.type = .addOrder) :
    cancelledIds (before ++ [m]) = cancelledIds before := by
  rw [cancelledIds, List.filter_append, List.filter_cons_of_neg (by rw [h]; decide),
    List.filter_nil, List.append_nil, cancelledIds]

/-- One more cancel of the list. -/
theorem cancelledIds_snoc_cancel (h : m.type = .cancelOrder) :
    cancelledIds (before ++ [m]) = cancelledIds before ++ [m.id] := by
  rw [cancelledIds, List.filter_append, List.filter_cons_of_pos (by simpa using h), List.map_append]
  rfl

/-- There are at most as many new orders as messages. -/
theorem length_addedIds_le (msgs : List FeedMessage) : (addedIds msgs).length ≤ msgs.length := by
  rw [addedIds, List.length_map]
  exact List.length_filter_le _ _

/-- The new orders have the ids 1, 2, 3 and so on. -/
def Numbered (msgs : List FeedMessage) : Prop :=
  (addedIds msgs).map UInt64.toNat = List.range' 1 (addedIds msgs).length

/-- One more new order with the next id. -/
theorem Numbered.add (h : Numbered before) (hm : IsNewOrder before m) :
    Numbered (before ++ [m]) := by
  unfold Numbered at h ⊢
  rw [addedIds_snoc_add hm.type, List.map_append, h, List.length_append, List.map_singleton,
    hm.id, List.length_singleton, List.range'_concat]
  simp [Nat.add_comm]

/-- A cancel has no id of its own. -/
theorem Numbered.cancel (h : Numbered before) (hm : m.type = .cancelOrder) :
    Numbered (before ++ [m]) := by
  unfold Numbered at h ⊢
  rw [addedIds_snoc_cancel hm]
  exact h

/-- The next id has not been sent. -/
theorem Numbered.not_mem (h : Numbered before) {id : OrderId}
    (hid : id.toNat = (addedIds before).length + 1) : id ∉ addedIds before := by
  intro hmem
  have hrange := List.mem_map_of_mem (f := UInt64.toNat) hmem
  rw [show List.map UInt64.toNat (addedIds before) = _ from h, List.mem_range'_1] at hrange
  omega

end Ids

/-! ## The generators -/

namespace Generator

variable {R : RandomSource} {before : List FeedMessage} {g : Generator R}

/-- The next id is the next number. -/
structure Sent (before : List FeedMessage) (g : Generator R) : Prop where
  numbered : Numbered before
  nextId : g.nextId.toNat = (addedIds before).length + 1

/-- The ids of the narrow profile are those that have been sent. -/
structure NarrowOk (before : List FeedMessage) (g : Generator R) : Prop extends Sent before g where
  seen : g.ids = addedIds before

/-- The ids of the wide profile are those that have been sent and not cancelled. -/
structure WideOk (before : List FeedMessage) (g : Generator R) : Prop extends Sent before g where
  live : g.ids.Nodup ∧ ∀ id, id ∈ g.ids ↔ id ∈ addedIds before ∧ id ∉ cancelledIds before
  cancelled : ∀ id ∈ cancelledIds before, id ∈ addedIds before
  mid : |g.mid - 100000| ≤ before.length

/-- A new order with the next id has been sent. -/
theorem Sent.add (h : Sent before g) {m : FeedMessage} (hm : IsNewOrder before m)
    (hroom : before.length < vectorMaxSize) {g' : Generator R}
    (hnext : g'.nextId = g.nextId + 1) : Sent (before ++ [m]) g' := by
  have hlen := length_addedIds_le before
  have hnowrap : (addedIds before).length + 1 + 1 < 2 ^ 64 := by
    have : vectorMaxSize < 2 ^ 62 := by decide
    omega
  refine ⟨h.numbered.add hm, ?_⟩
  rw [hnext, UInt64.toNat_add, h.nextId, addedIds_snoc_add hm.type, List.length_append,
    List.length_singleton]
  exact Nat.mod_eq_of_lt hnowrap

/-- A cancel sends no id. -/
theorem Sent.cancel (h : Sent before g) {m : FeedMessage} (hm : m.type = .cancelOrder)
    {g' : Generator R} (hnext : g'.nextId = g.nextId) : Sent (before ++ [m]) g' := by
  refine ⟨h.numbered.cancel hm, ?_⟩
  rw [addedIds_snoc_cancel hm, hnext]
  exact h.nextId

/-- The timestamp of a message is its number. -/
theorem toNat_ts (hroom : before.length < vectorMaxSize) :
    (UInt64.ofNat before.length).toNat = before.length := by
  have hmax : vectorMaxSize < UInt64.size := by decide
  exact UInt64.toNat_ofNat_of_lt' (by omega)

/-! ### What a step can do -/

section Steps

variable (padding : Vector UInt8 6) (i : Nat) (g : Generator R)

/-- A new order of the narrow profile. -/
theorem addNarrow_eq : ∃ (side : Side) (price : Set.Icc (95 : Int) 105)
    (qty : Set.Icc (1 : Int) 20) (rng : R.State), (side = .buy ∨ side = .sell) ∧
      (g.addNarrow padding i).1.msg =
        ⟨.addOrder, side, g.nextId, price.1, qty.1, UInt64.ofNat i⟩ ∧
      (g.addNarrow padding i).2 =
        { g with rng := rng, ids := g.ids ++ [g.nextId], nextId := g.nextId + 1 } := by
  refine ⟨_, _, _, _, ?_, rfl, rfl⟩
  split
  · exact Or.inl rfl
  · exact Or.inr rfl

/-- A message of the narrow profile: a new order, or the cancel of an order that was seen. -/
theorem stepNarrow_cases :
    (∃ rng, g.stepNarrow padding i = { g with rng := rng }.addNarrow padding i) ∨
      ∃ id rng, id ∈ g.ids ∧
        (g.stepNarrow padding i).1.msg = ⟨.cancelOrder, ⟨0⟩, id, 0, 0, UInt64.ofNat i⟩ ∧
        (g.stepNarrow padding i).2 = { g with rng := rng } := by
  unfold stepNarrow
  split
  · exact Or.inl ⟨g.rng, rfl⟩
  · next x xs hids =>
      generalize R.uniform 0 99 _ g.rng = draw
      obtain ⟨action, rng⟩ := draw
      dsimp only
      split
      · exact Or.inl ⟨rng, rfl⟩
      · refine Or.inr ⟨_, _, ?_, rfl, rfl⟩
        rw [hids]
        exact List.get_mem _ _

/-- The mid moves by a tick at most. -/
theorem drift_eq : ∃ (rng : R.State) (mid : Price), g.drift = { g with rng := rng, mid := mid } ∧
    (mid = g.mid ∨ ∃ d : Set.Icc (-1 : Int) 1, mid = wrap64 (g.mid + d.1)) := by
  by_cases hdrift : (R.uniform 0 99 (by decide) g.rng).1.1 < 10
  · exact ⟨_, _, if_pos hdrift, Or.inr ⟨_, rfl⟩⟩
  · exact ⟨_, _, if_neg hdrift, Or.inl rfl⟩

/-- A new order of the wide profile. -/
theorem addWide_eq (depth : Nat) : ∃ (side : Side) (off : Set.Icc (0 : Int) depth)
    (qty : Set.Icc (1 : Int) 20) (rng : R.State), (side = .buy ∨ side = .sell) ∧
      (g.addWide depth padding i).1.msg =
        ⟨.addOrder, side, g.nextId, widePrice side g.mid off.1, qty.1, UInt64.ofNat i⟩ ∧
      (g.addWide depth padding i).2 =
        { g with rng := rng, ids := g.ids ++ [g.nextId], nextId := g.nextId + 1 } := by
  have hmin : ∀ a c : Set.Icc (0 : Int) depth, min a.1 c.1 ∈ Set.Icc (0 : Int) depth := by
    intro a c
    exact ⟨le_min a.2.1 c.2.1, (min_le_left _ _).trans a.2.2⟩
  refine ⟨_, ⟨_, hmin _ _⟩, _, _, ?_, rfl, rfl⟩
  split
  · exact Or.inl rfl
  · exact Or.inr rfl

/-- A message of the wide profile: a new order, or the cancel of a live one. -/
theorem stepWide_cases (depth : Nat) :
    (∃ rng, g.stepWide depth padding i = { g.drift with rng := rng }.addWide depth padding i) ∨
      ∃ (k : Nat) (id : OrderId) (rng : R.State), g.ids[k]? = some id ∧
        (g.stepWide depth padding i).1.msg = ⟨.cancelOrder, ⟨0⟩, id, 0, 0, UInt64.ofNat i⟩ ∧
        (g.stepWide depth padding i).2 =
          { g.drift with rng := rng, ids := removeAt g.ids k } := by
  obtain ⟨rng₀, mid, hdrift, -⟩ := g.drift_eq
  unfold stepWide
  rw [hdrift]
  dsimp only
  split
  · exact Or.inl ⟨rng₀, rfl⟩
  · next x xs hids =>
      split
      · exact Or.inl ⟨_, rfl⟩
      · refine Or.inr ⟨_, _, _, ?_, rfl, by rw [hids]⟩
        rw [hids]
        exact List.getElem?_eq_getElem (pick_lt _)

end Steps

/-- Swapping with the last one and popping removes one id. -/
theorem removeAt_perm {live : List OrderId} {k : Nat} {id : OrderId} (hk : live[k]? = some id) :
    (id :: removeAt live k).Perm live := by
  obtain ⟨hlt, hid⟩ := List.getElem?_eq_some_iff.mp hk
  have hsplit : live = live.take k ++ id :: live.drop (k + 1) := by
    rw [← hid, List.cons_getElem_drop_succ, List.take_append_drop]
  have hlen : (live.take k).length = k := List.length_take_of_le hlt.le
  generalize live.take k = a at hsplit hlen
  generalize live.drop (k + 1) = c at hsplit
  subst hsplit hlen
  unfold removeAt
  rw [List.set_append_right _ _ le_rfl, Nat.sub_self, List.set_cons_zero]
  rcases List.eq_nil_or_concat c with rfl | ⟨d, y, rfl⟩
  · rw [List.dropLast_concat]
    exact (List.perm_append_singleton id a).symm
  · have hlast : (a ++ id :: (d ++ [y])).getLastD 0 = y := by
      rw [← List.cons_append, ← List.append_assoc, List.getLastD_concat]
    have hdrop : (a ++ y :: (d ++ [y])).dropLast = a ++ y :: d := by
      rw [← List.cons_append, ← List.append_assoc, List.dropLast_concat]
    rw [List.concat_eq_append, hlast, hdrop]
    exact List.perm_middle.symm.trans
      (((List.perm_append_singleton y d).symm.cons id).append_left a)

/-! ### The profiles -/

/-- A message of the narrow profile. -/
theorem NarrowOk.step (h : NarrowOk before g) (hroom : before.length < vectorMaxSize)
    (padding : Vector UInt8 6) :
    NarrowMessage before (g.stepNarrow padding before.length).1.msg ∧
      NarrowOk (before ++ [(g.stepNarrow padding before.length).1.msg])
        (g.stepNarrow padding before.length).2 := by
  rcases g.stepNarrow_cases padding before.length with ⟨rng, heq⟩ | ⟨id, rng, hid, hmsg, hnext⟩
  · obtain ⟨side, price, qty, rng', hside, hmsg, hnext⟩ :=
      addNarrow_eq padding before.length { g with rng := rng }
    rw [heq, hmsg, hnext]
    have hnew : IsNewOrder before ⟨.addOrder, side, g.nextId, price.1, qty.1,
        UInt64.ofNat before.length⟩ := ⟨rfl, hside, h.nextId, qty.2⟩
    refine ⟨⟨toNat_ts hroom, Or.inl ⟨hnew, price.2⟩⟩, h.toSent.add hnew hroom rfl, ?_⟩
    rw [addedIds_snoc_add rfl, ← h.seen]
  · rw [h.seen] at hid
    rw [hmsg, hnext]
    refine ⟨⟨toNat_ts hroom, Or.inr ⟨rfl, hid⟩⟩, h.toSent.cancel rfl rfl, ?_⟩
    rw [addedIds_snoc_cancel rfl]
    exact h.seen

/-- The mid of a message is a tick from the last one at most, and does not wrap. -/
theorem WideOk.drift (h : WideOk before g) (hroom : before.length < vectorMaxSize) :
    ∃ rng mid, g.drift = { g with rng := rng, mid := mid } ∧
      |mid - g.mid| ≤ 1 ∧ |mid - 100000| ≤ before.length + 1 := by
  obtain ⟨rng, mid, heq, hmid⟩ := g.drift_eq
  refine ⟨rng, mid, heq, ?_⟩
  have hfar := h.mid
  rw [abs_le] at hfar
  rw [abs_le, abs_le]
  rcases hmid with rfl | ⟨d, rfl⟩
  · lia
  · obtain ⟨d, hle, hge⟩ := d
    have hmax : vectorMaxSize < 2 ^ 58 := by decide
    have hfits : FitsInt64 (g.mid + d) := by
      unfold FitsInt64 int64Min int64Max
      lia
    rw [show wrap64 (g.mid + d) = _ from wrap64_eq_iff.mpr hfits]
    lia

/-- The price of a new order is on its side of the mid, and does not wrap. -/
theorem widePrice_mem {side : Side} {mid : Price} {depth : Nat} {off : Int}
    (hroom : before.length < vectorMaxSize) (hdepth : depth < 2 ^ 31)
    (hmid : |mid - 100000| ≤ before.length + 1) (hoff : 0 ≤ off ∧ off ≤ depth) :
    if side = .buy then mid - depth ≤ widePrice side mid off ∧ widePrice side mid off ≤ mid
    else mid + 1 ≤ widePrice side mid off ∧ widePrice side mid off ≤ mid + 1 + depth := by
  have hmax : vectorMaxSize < 2 ^ 58 := by decide
  rw [abs_le] at hmid
  have hfits : ∀ x : Int, mid - depth ≤ x → x ≤ mid + 1 + depth → wrap64 x = x := by
    intro x hle hge
    refine wrap64_eq_iff.mpr ?_
    unfold FitsInt64 int64Min int64Max
    lia
  unfold widePrice
  split
  · rw [hfits _ (by lia) (by lia)]
    lia
  · rw [hfits (mid + 1) (by lia) (by lia), hfits _ (by lia) (by lia)]
    lia

/-- A message of the wide profile, around the mid that the generator has after it. -/
theorem WideOk.step (h : WideOk before g) (hroom : before.length < vectorMaxSize) {depth : Nat}
    (hdepth : depth < 2 ^ 31) (padding : Vector UInt8 6) :
    WideMessage depth (g.stepWide depth padding before.length).2.mid before
        (g.stepWide depth padding before.length).1.msg ∧
      |(g.stepWide depth padding before.length).2.mid - g.mid| ≤ 1 ∧
      WideOk (before ++ [(g.stepWide depth padding before.length).1.msg])
        (g.stepWide depth padding before.length).2 := by
  obtain ⟨rng₀, mid, hdrift, htick, hmid⟩ := h.drift hroom
  have hmid' : ∀ m : FeedMessage, |mid - 100000| ≤ (before ++ [m]).length := by
    intro m
    rw [List.length_append, List.length_singleton]
    exact_mod_cast hmid
  rcases g.stepWide_cases padding before.length depth with
    ⟨rng, heq⟩ | ⟨k, id, rng, hk, hmsg, hnext⟩
  · rw [hdrift] at heq
    obtain ⟨side, off, qty, rng', hside, hmsg, hnext⟩ :=
      addWide_eq padding before.length { g with rng := rng, mid := mid } depth
    rw [heq, hmsg, hnext]
    have hnew : IsNewOrder before ⟨.addOrder, side, g.nextId, widePrice side mid off.1, qty.1,
        UInt64.ofNat before.length⟩ := ⟨rfl, hside, h.nextId, qty.2⟩
    have hfresh := h.numbered.not_mem h.nextId
    refine ⟨⟨toNat_ts hroom, Or.inl ⟨hnew, widePrice_mem hroom hdepth hmid off.2⟩⟩, htick,
      h.toSent.add hnew hroom rfl, ⟨?_, fun id => ?_⟩, ?_, hmid' _⟩
    · refine List.nodup_append.mpr ⟨h.live.1, List.nodup_singleton _, ?_⟩
      intro a ha c hc heq
      rw [List.mem_singleton.mp hc] at heq
      rw [← heq] at hfresh
      exact hfresh ((h.live.2 a).mp ha).1
    · rw [addedIds_snoc_add rfl, cancelledIds_snoc_add rfl, List.mem_append, List.mem_append,
        h.live.2, List.mem_singleton]
      refine ⟨?_, ?_⟩
      · intro hid
        rcases hid with hid | rfl
        · exact ⟨Or.inl hid.1, hid.2⟩
        · exact ⟨Or.inr rfl, fun hmem => hfresh (h.cancelled _ hmem)⟩
      · intro hid
        rcases hid.1 with hadded | rfl
        · exact Or.inl ⟨hadded, hid.2⟩
        · exact Or.inr rfl
    · intro id hid
      rw [cancelledIds_snoc_add rfl] at hid
      rw [addedIds_snoc_add rfl]
      exact List.mem_append_left _ (h.cancelled id hid)
  · rw [hmsg, hnext, hdrift]
    have hperm := removeAt_perm hk
    have hlive := (h.live.2 id).mp (List.mem_of_getElem? hk)
    obtain ⟨hgone, hnodup⟩ := List.nodup_cons.mp (hperm.nodup_iff.mpr h.live.1)
    refine ⟨⟨toNat_ts hroom, Or.inr ⟨⟨rfl, hlive.1⟩, hlive.2⟩⟩, htick, h.toSent.cancel rfl rfl,
      ⟨hnodup, fun j => ?_⟩, ?_, hmid' _⟩
    · have hmem : j ∈ g.ids ↔ j = id ∨ j ∈ removeAt g.ids k := by
        rw [← hperm.mem_iff, List.mem_cons]
      rw [addedIds_snoc_cancel rfl, cancelledIds_snoc_cancel rfl, List.mem_append,
        List.mem_singleton, not_or, ← and_assoc, ← h.live.2, hmem]
      refine ⟨fun hj => ⟨Or.inr hj, fun heq => ?_⟩, fun hj => hj.1.resolve_left hj.2⟩
      rw [heq] at hj
      exact hgone hj
    · intro j hj
      rw [cancelledIds_snoc_cancel rfl, List.mem_append, List.mem_singleton] at hj
      rw [addedIds_snoc_cancel rfl]
      rcases hj with hj | rfl
      · exact h.cancelled j hj
      · exact hlive.1

/-- The loop of a generator whose steps keep an invariant. -/
theorem messages_eachAfter {P : List FeedMessage → Generator R → Prop}
    {ok : List FeedMessage → FeedMessage → Prop}
    {step : Nat → Generator R → FeedRecord × Generator R}
    (hstep : ∀ before g, P before g → before.length < vectorMaxSize →
      ok before (step before.length g).1.msg ∧
        P (before ++ [(step before.length g).1.msg]) (step before.length g).2)
    (left : Nat) (before : List FeedMessage) (g : Generator R) (h : P before g)
    (hroom : before.length + left ≤ vectorMaxSize) :
    EachAfter ok before ((messages step left before.length g).map FeedRecord.msg) := by
  induction left generalizing before g with
  | zero => exact trivial
  | succ left ih =>
      obtain ⟨hok, hnext⟩ := hstep before g h (by omega)
      have hrest := ih _ _ hnext (by rw [List.length_append, List.length_singleton]; omega)
      rw [List.length_append, List.length_singleton] at hrest
      exact ⟨hok, hrest⟩

/-- The loop of the wide profile. Its mids are those of the generator after each step. -/
theorem messages_eachAround {depth : Nat} (hdepth : depth < 2 ^ 31) (padding : Nat → Vector UInt8 6)
    (left : Nat) (before : List FeedMessage) (g : Generator R) (h : WideOk before g)
    (hroom : before.length + left ≤ vectorMaxSize) :
    ∃ mids, mids.length = left ∧ Drifting g.mid mids ∧
      EachAround depth before mids ((messages (fun i => stepWide depth (padding i) i) left
        before.length g).map FeedRecord.msg) := by
  induction left generalizing before g with
  | zero => exact ⟨[], rfl, List.isChain_singleton _, trivial⟩
  | succ left ih =>
      obtain ⟨hok, htick, hnext⟩ := h.step (by omega) hdepth (padding before.length)
      obtain ⟨mids, hlen, hdrifting, hrest⟩ := ih _ _ hnext (by
        rw [List.length_append, List.length_singleton]
        omega)
      rw [List.length_append, List.length_singleton] at hrest
      refine ⟨_ :: mids, ?_, List.isChain_cons_cons.mpr ⟨htick, hdrifting⟩, hok, hrest⟩
      rw [List.length_cons, hlen]

end Generator

/-- A fresh generator has sent nothing. -/
theorem fresh_sent {R : RandomSource} (rng : R.State) :
    Generator.Sent [] ({ rng := rng } : Generator R) := ⟨rfl, rfl⟩

section Feeds

variable (R : RandomSource) (padding : Nat → Vector UInt8 6) (seed : UInt64)

/-- A feed of the narrow profile. -/
theorem generateFeed_ok {numMessages : Nat} (hcount : numMessages ≤ vectorMaxSize) :
    ∃ msgs, generateFeed R padding seed numMessages = .ok msgs ∧
      msgs.records.length = numMessages ∧
      EachAfter NarrowMessage [] (msgs.records.map FeedRecord.msg) := by
  refine ⟨_, dif_pos hcount, Generator.length_messages _ _ _ _, ?_⟩
  exact Generator.messages_eachAfter (P := Generator.NarrowOk)
    (fun before g h hroom => h.step hroom (padding before.length)) numMessages [] _
    ⟨fresh_sent _, rfl⟩ (by simpa using hcount)

/-- A feed of the wide profile. -/
theorem generateWideFeed_ok {numMessages depth : Nat} (hcount : numMessages ≤ vectorMaxSize)
    (hdepth : depth < 2 ^ 31) :
    ∃ msgs, generateWideFeed R padding seed numMessages depth = .ok msgs ∧
      msgs.records.length = numMessages ∧
      ∃ mids, mids.length = numMessages ∧ Drifting 100000 mids ∧
        EachAround depth [] mids (msgs.records.map FeedRecord.msg) := by
  refine ⟨_, dif_pos hcount, Generator.length_messages _ _ _ _, ?_⟩
  refine Generator.messages_eachAround hdepth padding numMessages [] _
    ⟨fresh_sent _, ⟨List.nodup_nil, fun id => ?_⟩, fun id hid => ?_, ?_⟩ (by simpa using hcount)
  · simp [addedIds]
  · cases hid
  · simp

end Feeds

/-! ## Replaying a generated feed -/

namespace RestingBook

variable {b : RestingBook}

/-- A new order adds its quantity at most. -/
theorem Valid.totalQty_add_le (hv : b.Valid) {isBuy : Bool} {id : OrderId} {price : Price}
    {qty : Quantity} (hqty : 0 ≤ qty) : (b.add isBuy id price qty).totalQty ≤ b.totalQty + qty := by
  have hleft : 0 ≤ (b.sweepOf isBuy id price qty).left := sweep_left_nonneg hqty _
  have hle : (b.sweepOf isBuy id price qty).left ≤ qty := sweep_left_le (hv.positive (!isBuy))
  have hrest : ((b.sweepOf isBuy id price qty).rest.map Resting.qty).sum ≤
      ((b.side (!isBuy)).map Resting.qty).sum := by
    simpa [sweepOf] using sum_sweep_rest_le (hv.positive (!isBuy)) fun _ => true
  rw [totalQty, totalQty, ((all_perm isBuy).map Resting.qty).sum_eq,
    ((all_perm (b := b) isBuy).map Resting.qty).sum_eq, List.map_append, List.map_append,
    List.sum_append, List.sum_append, side_add_self, side_add_not, sum_joined hleft]
  lia

/-- A cancel adds nothing. -/
theorem Valid.totalQty_cancel_le (hv : b.Valid) {id : OrderId} :
    (b.cancel id).totalQty ≤ b.totalQty := by
  rw [totalQty, totalQty, all_cancel]
  refine (List.filter_sublist.map Resting.qty).sum_le_sum fun q hq => ?_
  obtain ⟨r, hr, rfl⟩ := List.mem_map.mp hq
  obtain ⟨s, hs⟩ := mem_all.mp hr
  exact (hv.positive s r hs).le

end RestingBook

section Replay

variable {poolCapacity windowSize : Nat}

/-- A new order with the next id at a price that the ladders can take, or the cancel of an order
that was sent before. -/
def Sendable (windowSize : Nat) (before : List FeedMessage) (m : FeedMessage) : Prop :=
  (IsNewOrder before m ∧ PriceInRange windowSize m.price) ∨ IsCancel before m

/-- The book after a generated feed. -/
structure Replayed (before : List FeedMessage) (b : OrderBook poolCapacity windowSize) : Prop where
  lock : ∃ mb sb sa, Lockstep b mb sb sa
  valid : b.resting.Valid
  ids : ∀ r ∈ b.resting.all, r.id ∈ addedIds before
  population : b.resting.all.length ≤ (addedIds before).length
  total : b.resting.totalQty ≤ 20 * (addedIds before).length
  duplicates : b.stats.duplicateId = 0
  exhausted : before.length ≤ poolCapacity → b.stats.poolExhausted = 0

variable {before : List FeedMessage} {b : OrderBook poolCapacity windowSize} {m : FeedMessage}

/-- A new order of a generated feed: it is accepted, or there is no slot for it. -/
theorem Replayed.add (hvalid : ValidWindow windowSize) (h : Replayed before b)
    (hnum : Numbered before) (hm : IsNewOrder before m) (hprice : PriceInRange windowSize m.price) :
    ∃ b', b.applyMessage m = .ok b' ∧ Replayed (before ++ [m]) b' := by
  obtain ⟨mb, sb, sa, hlock⟩ := h.lock
  have hadded : addedIds (before ++ [m]) = addedIds before ++ [m.id] := addedIds_snoc_add hm.type
  have hlen : (before ++ [m]).length = before.length + 1 := List.length_append
  have hsent := length_addedIds_le before
  have hpopulation := h.population
  have htotal := h.total
  have hnew : ∀ r ∈ b.resting.all, r.id ≠ m.id := by
    intro r hr heq
    exact hnum.not_mem hm.id (heq ▸ h.ids r hr)
  rw [OrderBook.applyMessage, if_pos hm.type]
  rcases addOrder_refines hvalid hlock m.id m.side m.qty m.ts hprice with
    ⟨⟨r, hr, hid⟩, -⟩ | ⟨-, hfull, hrun, -⟩ |
      ⟨b', mb', sb', sa', -, -, hrun, -, hlock', hbook, -, hstats⟩
  · exact absurd hid (hnew r hr)
  · rw [hrun]
    refine ⟨_, rfl, ⟨mb, sb, sa, hlock.setStats _⟩, h.valid, fun r hr => ?_, ?_, ?_, h.duplicates,
      fun hroom => ?_⟩
    · rw [hadded]
      exact List.mem_append_left _ (h.ids r hr)
    · rw [hadded, List.length_append]
      exact hpopulation.trans (Nat.le_add_right _ _)
    · rw [hadded, List.length_append]
      show b.resting.totalQty ≤ _
      push_cast
      lia
    · omega
  · rw [hrun]
    refine ⟨b', rfl, ⟨mb', sb', sa', hlock'⟩, ?_, fun r hr => ?_, ?_, ?_, ?_, fun hroom => ?_⟩
    · rw [hbook]
      exact h.valid.add hnew
    · rw [hbook] at hr
      rw [hadded, List.mem_append, List.mem_singleton]
      rcases RestingBook.mem_add_all hr with ⟨hid, -⟩ | ⟨x, hx, hid, -⟩
      · exact Or.inr hid
      · exact Or.inl (hid ▸ h.ids x hx)
    · have hle := b.resting.length_add_le (m.side = .buy) m.id m.price m.qty
      rw [hbook, hadded, List.length_append, List.length_singleton]
      omega
    · have hle := @RestingBook.Valid.totalQty_add_le b.resting h.valid (m.side = .buy) m.id m.price
        m.qty (by have := hm.qty.1; lia)
      have hqty := hm.qty.2
      rw [hbook, hadded, List.length_append, List.length_singleton]
      push_cast
      lia
    · rw [hstats]
      exact h.duplicates
    · rw [hstats]
      exact h.exhausted (by omega)

/-- A cancel of a generated feed. -/
theorem Replayed.cancel (hvalid : ValidWindow windowSize) (h : Replayed before b)
    (hm : m.type = .cancelOrder) :
    ∃ b', b.applyMessage m = .ok b' ∧ Replayed (before ++ [m]) b' := by
  obtain ⟨mb, sb, sa, hlock⟩ := h.lock
  have hadded : addedIds (before ++ [m]) = addedIds before := addedIds_snoc_cancel hm
  have hlen : (before ++ [m]).length = before.length + 1 := List.length_append
  have hother : ¬ m.type = .addOrder := by
    rw [hm]
    decide
  rw [OrderBook.applyMessage, if_neg hother, if_pos hm]
  rcases cancelOrder_refines hvalid hlock m.id with
    ⟨-, hrun, -⟩ | ⟨b', mb', sb', sa', -, hrun, -, hlock', hbook, -, hstats⟩
  · rw [hrun]
    refine ⟨b, rfl, h.lock, h.valid, ?_, ?_, ?_, h.duplicates, fun hroom => h.exhausted (by omega)⟩
    · rw [hadded]
      exact h.ids
    · rw [hadded]
      exact h.population
    · rw [hadded]
      exact h.total
  · rw [hrun]
    refine ⟨b', rfl, ⟨mb', sb', sa', hlock'⟩, ?_, fun r hr => ?_, ?_, ?_, ?_, fun hroom => ?_⟩
    · rw [hbook]
      exact h.valid.cancel
    · rw [hbook, RestingBook.all_cancel] at hr
      rw [hadded]
      exact h.ids r (List.mem_of_mem_filter hr)
    · rw [hbook, RestingBook.all_cancel, hadded]
      exact (List.length_filter_le _ _).trans h.population
    · rw [hbook, hadded]
      exact h.valid.totalQty_cancel_le.trans h.total
    · rw [hstats]
      exact h.duplicates
    · rw [hstats]
      exact h.exhausted (by omega)

/-- A generated feed can be replayed. -/
theorem Replayed.run (hvalid : ValidWindow windowSize) (msgs : List FeedMessage)
    (h : Replayed before b) (hnum : Numbered before)
    (hmsgs : EachAfter (Sendable windowSize) before msgs) :
    ∃ b', b.applyMessages msgs = .ok b' ∧ Replayed (before ++ msgs) b' := by
  induction msgs generalizing before b with
  | nil => exact ⟨b, rfl, by rwa [List.append_nil]⟩
  | cons m ms ih =>
      obtain ⟨hm, hms⟩ := hmsgs
      have hstep : ∃ b', b.applyMessage m = .ok b' ∧ Replayed (before ++ [m]) b' ∧
          Numbered (before ++ [m]) := by
        rcases hm with ⟨hnew, hprice⟩ | hcancel
        · obtain ⟨b', hrun, h'⟩ := h.add hvalid hnum hnew hprice
          exact ⟨b', hrun, h', hnum.add hnew⟩
        · obtain ⟨b', hrun, h'⟩ := h.cancel hvalid hcancel.type
          exact ⟨b', hrun, h', hnum.cancel hcancel.type⟩
      obtain ⟨b₁, hrun, h₁, hnum₁⟩ := hstep
      obtain ⟨b', hrun', h'⟩ := ih h₁ hnum₁ hms
      refine ⟨b', ?_, ?_⟩
      · rw [OrderBook.applyMessages, hrun, ok_bind, hrun']
      · rwa [List.append_assoc] at h'

end Replay

/-- A weaker property of the messages of a feed. -/
theorem EachAfter.imp {ok ok' : List FeedMessage → FeedMessage → Prop}
    {before msgs : List FeedMessage} (h : EachAfter ok before msgs)
    (himp : ∀ before m, ok before m → ok' before m) : EachAfter ok' before msgs := by
  induction msgs generalizing before with
  | nil => exact trivial
  | cons m ms ih => exact ⟨himp before m h.1, ih h.2⟩

/-- The messages of a feed of the wide profile, when all its mids have a property. -/
theorem EachAround.eachAfter {depth : Nat} {P : Price → Prop} {before msgs : List FeedMessage}
    {mids : List Price} (h : EachAround depth before mids msgs) (hmids : ∀ mid ∈ mids, P mid) :
    EachAfter (fun before m => ∃ mid, P mid ∧ WideMessage depth mid before m) before msgs := by
  induction msgs generalizing before mids with
  | nil => exact trivial
  | cons m ms ih =>
      cases mids with
      | nil => exact h.elim
      | cons mid mids =>
          obtain ⟨hm, hms⟩ := h
          exact ⟨⟨mid, hmids mid (by simp), hm⟩, ih hms fun x hx => hmids x (by simp [hx])⟩

/-- The messages of both profiles can be sent to a book with a window of reasonable size. -/
theorem NarrowMessage.sendable {windowSize : Nat} (hwindow : windowSize ≤ 2 ^ 62)
    {before : List FeedMessage} {m : FeedMessage} (h : NarrowMessage before m) :
    Sendable windowSize before m := by
  refine h.kind.imp_left fun hnew => ⟨hnew.1, ?_⟩
  obtain ⟨-, hle, hge⟩ := hnew
  unfold PriceInRange int64Min int64Max
  lia

/-- The same of the wide profile. -/
theorem WideMessage.sendable {windowSize depth : Nat} (hwindow : windowSize ≤ 2 ^ 62)
    (hdepth : depth < 2 ^ 31) {mid : Price} {before : List FeedMessage} {m : FeedMessage}
    (hmid : |mid - 100000| ≤ vectorMaxSize) (h : WideMessage depth mid before m) :
    Sendable windowSize before m := by
  have hmax : vectorMaxSize < 2 ^ 58 := by decide
  refine h.kind.imp (fun hnew => ⟨hnew.1, ?_⟩) And.left
  obtain ⟨-, hside⟩ := hnew
  rw [abs_le] at hmid
  unfold PriceInRange int64Min int64Max
  split at hside
  · lia
  · lia

/-- There is a report on every book. -/
theorem report_ok {poolCapacity windowSize : Nat} (b : OrderBook poolCapacity windowSize) :
    ∃ result, report b = .ok result ∧ result.stats = b.stats ∧
      result.totalRestingQty = b.totalRestingQty := by
  unfold report
  rw [computeSignals_eq _ rfl]
  exact ⟨_, rfl, rfl, rfl⟩

/-- The new orders of a feed are numbered. -/
theorem EachAfter.numbered {ok : List FeedMessage → FeedMessage → Prop}
    (hok : ∀ before m, ok before m → IsNewOrder before m ∨ IsCancel before m)
    {before msgs : List FeedMessage} (h : EachAfter ok before msgs) (hnum : Numbered before) :
    Numbered (before ++ msgs) := by
  induction msgs generalizing before with
  | nil => rwa [List.append_nil]
  | cons m ms ih =>
      have hstep : Numbered (before ++ [m]) := by
        rcases hok before m h.1 with hnew | hcancel
        · exact hnum.add hnew
        · exact hnum.cancel hcancel.type
      have hrest := ih h.2 hstep
      rwa [List.append_assoc] at hrest

/-- No order is cancelled twice. -/
theorem EachAfter.nodup_cancelledIds {ok : List FeedMessage → FeedMessage → Prop}
    (hok : ∀ before m, ok before m → IsNewOrder before m ∨
      (IsCancel before m ∧ m.id ∉ cancelledIds before))
    {before msgs : List FeedMessage} (h : EachAfter ok before msgs)
    (hnodup : (cancelledIds before).Nodup) : (cancelledIds (before ++ msgs)).Nodup := by
  induction msgs generalizing before with
  | nil => rwa [List.append_nil]
  | cons m ms ih =>
      have hstep : (cancelledIds (before ++ [m])).Nodup := by
        rcases hok before m h.1 with hnew | ⟨hcancel, hfirst⟩
        · rwa [cancelledIds_snoc_add hnew.type]
        · rw [cancelledIds_snoc_cancel hcancel.type]
          exact List.nodup_append.mpr ⟨hnodup, List.nodup_singleton _, fun a ha c hc heq =>
            hfirst (by rwa [← List.mem_singleton.mp hc, ← heq])⟩
      have hrest := ih h.2 hstep
      rwa [List.append_assoc] at hrest

section Generate

variable (R : RandomSource) (padding : Nat → Vector UInt8 6) (seed : UInt64)

/-- What the generators make, from any random source: as many messages as they are asked for, each
stamped with its number, with the new orders numbered from 1 on and every cancel naming an order
that was sent before. In the wide profile no order is cancelled twice, and the prices stay on their
side of one mid, which starts at 100000 and moves by a tick a message at most. -/
theorem generated_feeds {numMessages depth : Nat} (hcount : numMessages ≤ vectorMaxSize)
    (hdepth : depth < 2 ^ 31) :
    (∃ msgs, generateFeed R padding seed numMessages = .ok msgs ∧
      msgs.records.length = numMessages ∧
      EachAfter NarrowMessage [] (msgs.records.map FeedRecord.msg) ∧
      Numbered (msgs.records.map FeedRecord.msg)) ∧
    ∃ msgs, generateWideFeed R padding seed numMessages depth = .ok msgs ∧
      msgs.records.length = numMessages ∧
      (∃ mids, mids.length = numMessages ∧ Drifting 100000 mids ∧
        EachAround depth [] mids (msgs.records.map FeedRecord.msg)) ∧
      Numbered (msgs.records.map FeedRecord.msg) ∧
      (cancelledIds (msgs.records.map FeedRecord.msg)).Nodup := by
  obtain ⟨narrow, hnarrow, hlen, hmsgs⟩ := generateFeed_ok R padding seed hcount
  obtain ⟨wide, hwide, hlen', mids, hmids, hdrifting, hmsgs'⟩ :=
    generateWideFeed_ok R padding seed hcount hdepth
  have heach := hmsgs'.eachAfter hdrifting.near
  refine ⟨⟨narrow, hnarrow, hlen, hmsgs, ?_⟩, wide, hwide, hlen',
    ⟨mids, hmids, hdrifting, hmsgs'⟩, ?_, ?_⟩
  · exact hmsgs.numbered (fun before m h => h.kind.imp_left And.left) rfl
  · refine heach.numbered (fun before m h => ?_) rfl
    obtain ⟨mid, -, h⟩ := h
    exact h.kind.imp And.left And.left
  · refine heach.nodup_cancelledIds (fun before m h => ?_) List.nodup_nil
    obtain ⟨mid, -, h⟩ := h
    exact h.kind.imp_left And.left

/-- The messages of a generated file can be sent to a book. -/
theorem generate_sendable {windowSize count : Nat} (hwindow : windowSize ≤ 2 ^ 62)
    (hcount : count ≤ vectorMaxSize) (wide : Bool) :
    ∃ msgs, (if wide then generateWideFeed R padding seed count
        else generateFeed R padding seed count) = .ok msgs ∧ msgs.records.length = count ∧
      EachAfter (Sendable windowSize) [] (msgs.records.map FeedRecord.msg) := by
  cases wide with
  | true =>
      obtain ⟨msgs, hrun, hlen, mids, hmids, hdrifting, hmsgs⟩ :=
        @generateWideFeed_ok R padding seed count 300 hcount (by decide)
      have hnear : ∀ mid ∈ mids, |mid - 100000| ≤ (vectorMaxSize : Int) := by
        intro mid hmid
        exact (hdrifting.near mid hmid).trans (by rw [hmids]; exact_mod_cast hcount)
      refine ⟨msgs, hrun, hlen, (hmsgs.eachAfter hnear).imp fun before m hm => ?_⟩
      obtain ⟨mid, hmid, hm⟩ := hm
      exact hm.sendable hwindow (by decide) hmid
  | false =>
      obtain ⟨msgs, hrun, hlen, hmsgs⟩ := generateFeed_ok R padding seed hcount
      exact ⟨msgs, hrun, hlen, hmsgs.imp fun before m hm => hm.sendable hwindow⟩

/-- Generate a file and replay it, for either profile and any random source: the file is written and
loaded, no message is a fault, no id is a duplicate, no order is refused if there are at most as
many messages as slots, and at most 20 rest for each message, far from what a 64-bit integer holds.
-/
theorem generate_then_replay {poolCapacity windowSize : Nat} (hvalid : ValidWindow windowSize)
    (hwindow : windowSize ≤ 2 ^ 62) (file : Option (List UInt8)) {count : Nat}
    (hcount : count ≤ vectorMaxSize) (wide : Bool) :
    ∃ bytes result, runGenerate R padding true file count seed wide = .ok (0, some bytes) ∧
      runReplay poolCapacity windowSize (some bytes) = .ok (some (.ok result)) ∧
      result.stats.duplicateId = 0 ∧
      (count ≤ poolCapacity → result.stats.poolExhausted = 0) ∧
      0 ≤ result.totalRestingQty ∧ result.totalRestingQty ≤ 20 * count := by
  obtain ⟨msgs, hgenerate, hlen, hmsgs⟩ := generate_sendable R padding seed hwindow hcount wide
  have hload := load_savedBytes msgs [] .empty
  rw [List.append_nil] at hload
  have hfresh : Replayed [] ({} : OrderBook poolCapacity windowSize) := by
    refine ⟨⟨{}, [], [], fresh_lockstep⟩, ?_, ?_, ?_, ?_, rfl, fun _ => rfl⟩
    · rw [fresh_resting hvalid]
      exact RestingBook.empty_valid
    · rw [fresh_resting hvalid]
      exact fun r hr => by cases hr
    · rw [fresh_resting hvalid]
      exact le_refl 0
    · rw [fresh_resting hvalid]
      exact le_refl 0
  obtain ⟨b, hrun, h⟩ := hfresh.run hvalid _ rfl hmsgs
  obtain ⟨mb, sb, sa, hlock⟩ := h.lock
  have hadds := length_addedIds_le (msgs.records.map FeedRecord.msg)
  rw [List.length_map, hlen] at hadds
  obtain ⟨result, hreport, hstats, htotal⟩ := report_ok b
  have hsum : result.totalRestingQty = b.resting.totalQty :=
    htotal.trans (hlock.totalRestingQty_eq hvalid).1
  refine ⟨savedBytes msgs, result, ?_, ?_, ?_, fun hroom => ?_, ?_, ?_⟩
  · rw [runGenerate, hgenerate]
    rfl
  · rw [runReplay, hload]
    show Except.ok (some (OrderBook.applyMessages _ _ >>= report)) = _
    rw [hrun, ok_bind, hreport]
  · rw [hstats]
    exact h.duplicates
  · rw [hstats]
    exact h.exhausted (by rwa [List.nil_append, List.length_map, hlen])
  · rw [hsum]
    exact (h.valid.side_le true).1.trans (h.valid.side_le true).2
  · rw [hsum]
    refine h.total.trans ?_
    rw [List.nil_append]
    exact_mod_cast Nat.mul_le_mul_left 20 hadds

end Generate

/-- A random source that reads its numbers from a list, and moves each into the bounds of its
distribution. -/
def scripted (numbers : List Int) : RandomSource where
  State := List Int
  seeded _ := numbers
  uniform lo hi h s :=
    (⟨max lo (min hi (s.headD lo)), le_max_left _ _, max_le h (min_le_left _ _)⟩, s.tail)

/-- The numbers of a feed of four messages of the narrow profile: two bids, a sale to the first of
them and a cancel of the second. -/
def narrowNumbers : List Int := [0, 100, 5, 0, 0, 99, 7, 0, 1, 100, 8, 80, 1]

/-- The same of the wide profile. The mid moves up to 100001 and back before the sale. -/
def wideNumbers : List Int :=
  [0, 1, 0, 0, 0, 5, 50, 0, 0, 300, 3, 7, 0, -1, 0, 50, 0, 9, 8, 50, 55, 1]

/-- Both profiles, with a sale and a cancel. -/
theorem generated_feeds_scripted :
    (∃ msgs, generateFeed (scripted narrowNumbers) (fun _ => Vector.replicate 6 0) 42 4 = .ok msgs ∧
      msgs.records.map FeedRecord.msg =
        [⟨.addOrder, .buy, 1, 100, 5, 0⟩, ⟨.addOrder, .buy, 2, 99, 7, 1⟩,
          ⟨.addOrder, .sell, 3, 100, 8, 2⟩, ⟨.cancelOrder, ⟨0⟩, 2, 0, 0, 3⟩] ∧
      Numbered (msgs.records.map FeedRecord.msg)) ∧
    ∃ msgs, generateWideFeed (scripted wideNumbers) (fun _ => Vector.replicate 6 0) 42 4 =
        .ok msgs ∧
      msgs.records.map FeedRecord.msg =
        [⟨.addOrder, .buy, 1, 100001, 5, 0⟩, ⟨.addOrder, .buy, 2, 99998, 7, 1⟩,
          ⟨.addOrder, .sell, 3, 100001, 8, 2⟩, ⟨.cancelOrder, ⟨0⟩, 2, 0, 0, 3⟩] ∧
      cancelledIds (msgs.records.map FeedRecord.msg) = [2] ∧
      (cancelledIds (msgs.records.map FeedRecord.msg)).Nodup := by
  obtain ⟨⟨narrow, hnarrow, -, -, hnum⟩, -⟩ := @generated_feeds (scripted narrowNumbers)
    (fun _ => Vector.replicate 6 0) 42 4 300 (by decide) (by decide)
  obtain ⟨-, wide, hwide, -, -, -, hnodup⟩ := @generated_feeds (scripted wideNumbers)
    (fun _ => Vector.replicate 6 0) 42 4 300 (by decide) (by decide)
  refine ⟨⟨narrow, hnarrow, ?_, hnum⟩, wide, hwide, ?_, ?_, hnodup⟩
  · cases hnarrow
    decide
  · cases hwide
    decide
  · cases hwide
    decide

/-- The feed of the wide profile, replayed: the sale trades with the first bid, and what is left of
it rests after the cancel. -/
theorem generate_then_replay_scripted :
    ∃ bytes result,
      runGenerate (scripted wideNumbers) (fun _ => Vector.replicate 6 0) true none 4 42 true =
        .ok (0, some bytes) ∧
      runReplay 4 64 (some bytes) = .ok (some (.ok result)) ∧
      result.fills = [⟨1, 3, 100001, 5⟩] ∧ result.totalRestingQty = 3 ∧
      result.stats.duplicateId = 0 ∧ result.stats.poolExhausted = 0 := by
  obtain ⟨bytes, result, hgenerate, hreplay, hdup, hroom, -, -⟩ :=
    @generate_then_replay (scripted wideNumbers) (fun _ => Vector.replicate 6 0) 42 4 64
      ⟨⟨6, rfl⟩, by decide⟩ (by decide) none 4 (by decide) true
  have hview : ((runGenerate (scripted wideNumbers) (fun _ => Vector.replicate 6 0) true none 4 42
      true >>= fun out => runReplay 4 64 out.2) >>= fun report => .ok (report.map fun r =>
        r.map fun r => (r.fills, r.totalRestingQty))) =
      .ok (some (.ok ([⟨1, 3, 100001, 5⟩], 3))) := by decide +kernel
  rw [hgenerate] at hview
  change (runReplay 4 64 (some bytes) >>= _) = _ at hview
  rw [hreplay] at hview
  obtain ⟨hfills, htotal⟩ := Prod.mk.inj (Except.ok.inj (Option.some.inj (Except.ok.inj hview)))
  exact ⟨bytes, result, hgenerate, hreplay, hfills, htotal, hdup, hroom (by decide)⟩

end LimitOrderBook
