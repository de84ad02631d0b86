import LimitOrderBook.Level.PriceLevel
import LimitOrderBook.Library.LinkedQueue
import Mathlib.Algebra.BigOperators.Group.List.Basic
import Mathlib.Data.List.Nodup
import Mathlib.Tactic.Ring

/-!
# Price levels are queues

`Queued h level q` says that the level's links spell out the queue `q` in the heap `h`: head and
tail at its ends, next and prev links mutually inverse, `totalQty` the sum of its quantities.
Each operation is described by what it does to `q` and by what it leaves alone: `Relinked` names
the links that change, and orders outside the queue keep every field.
-/

namespace LimitOrderBook

open LinkedQueue

/-- An order without its links. -/
def Order.body (o : Order) : Order := { o with prev := none, next := none }

/-- Two heaps that differ at most in links. -/
def SameBodies (h h' : Heap) : Prop := ∀ s, (h' s).body = (h s).body

namespace SameBodies

variable {h h' h'' : Heap}

/-- Every heap has its own bodies. -/
theorem refl (h : Heap) : SameBodies h h := fun _ => rfl

/-- Two changes of links are a change of links. -/
theorem trans (h₁ : SameBodies h h') (h₂ : SameBodies h' h'') : SameBodies h h'' :=
  fun s => (h₂ s).trans (h₁ s)

/-- Changing links keeps the id. -/
theorem id_eq (hb : SameBodies h h') (s : OrderRef) : (h' s).id = (h s).id := by
  simpa [Order.body] using congrArg Order.id (hb s)

/-- Changing links keeps the side. -/
theorem side_eq (hb : SameBodies h h') (s : OrderRef) : (h' s).side = (h s).side := by
  simpa [Order.body] using congrArg Order.side (hb s)

/-- Changing links keeps the price. -/
theorem price_eq (hb : SameBodies h h') (s : OrderRef) : (h' s).price = (h s).price := by
  simpa [Order.body] using congrArg Order.price (hb s)

/-- Changing links keeps the quantity. -/
theorem quantity_eq (hb : SameBodies h h') (s : OrderRef) :
    (h' s).quantity = (h s).quantity := by
  simpa [Order.body] using congrArg Order.quantity (hb s)

end SameBodies

/-- An order is its body and its two links. -/
theorem Order.eq_of_links {a b : Order} (hbody : a.body = b.body) (hprev : a.prev = b.prev)
    (hnext : a.next = b.next) : a = b := by
  cases a
  cases b
  simp only [Order.body, Order.mk.injEq] at hbody
  simp only at hprev hnext
  simp [hbody, hprev, hnext]

/-- From `h` to `h'` nothing changes but links: those of `o`, the forward link of `p` and the
backward link of `n`. -/
structure Relinked (h h' : Heap) (o : OrderRef) (p n : Option OrderRef) : Prop where
  bodies : SameBodies h h'
  prev : ∀ s ≠ o, n ≠ some s → (h' s).prev = (h s).prev
  next : ∀ s ≠ o, p ≠ some s → (h' s).next = (h s).next

/-- Every other order is untouched. -/
theorem Relinked.other {h h' : Heap} {o s : OrderRef} {p n : Option OrderRef}
    (hr : Relinked h h' o p n) (ho : s ≠ o) (hp : p ≠ some s) (hn : n ≠ some s) : h' s = h s :=
  Order.eq_of_links (hr.bodies s) (hr.prev s ho hn) (hr.next s ho hp)

namespace PriceLevel

/-! ## Links as functions -/

/-- The backward links of a heap. -/
def prevOf (h : Heap) : OrderRef → Option OrderRef := fun s => (h s).prev

/-- The forward links of a heap. -/
def nextOf (h : Heap) : OrderRef → Option OrderRef := fun s => (h s).next

section Links

variable (h : Heap) (o : OrderRef) (x : Option OrderRef)

@[simp] theorem prevOf_setPrev : prevOf (setPrev h o x) = Function.update (prevOf h) o x := by
  funext s
  by_cases hs : s = o
  · subst hs; simp [prevOf, setPrev]
  · simp [prevOf, setPrev, hs]

@[simp] theorem nextOf_setPrev : nextOf (setPrev h o x) = nextOf h := by
  funext s
  by_cases hs : s = o
  · subst hs; simp [nextOf, setPrev]
  · simp [nextOf, setPrev, hs]

@[simp] theorem prevOf_setNext : prevOf (setNext h o x) = prevOf h := by
  funext s
  by_cases hs : s = o
  · subst hs; simp [prevOf, setNext]
  · simp [prevOf, setNext, hs]

@[simp] theorem nextOf_setNext : nextOf (setNext h o x) = Function.update (nextOf h) o x := by
  funext s
  by_cases hs : s = o
  · subst hs; simp [nextOf, setNext]
  · simp [nextOf, setNext, hs]

/-- Setting a backward link changes links only. -/
theorem sameBodies_setPrev : SameBodies h (setPrev h o x) := by
  intro s
  by_cases hs : s = o
  · subst hs; simp [Order.body, setPrev]
  · simp [setPrev, hs]

/-- Setting a forward link changes links only. -/
theorem sameBodies_setNext : SameBodies h (setNext h o x) := by
  intro s
  by_cases hs : s = o
  · subst hs; simp [Order.body, setNext]
  · simp [setNext, hs]

/-- Setting a backward link leaves the other orders alone. -/
theorem setPrev_of_ne {s : OrderRef} (hs : s ≠ o) : setPrev h o x s = h s :=
  Function.update_of_ne hs _ _

/-- Setting a forward link leaves the other orders alone. -/
theorem setNext_of_ne {s : OrderRef} (hs : s ≠ o) : setNext h o x s = h s :=
  Function.update_of_ne hs _ _

end Links

/-! ## The links that change -/

section Relinking

variable (h : Heap) (level : PriceLevel) (o : OrderRef) (p n : Option OrderRef)

/-- `push_back` relinks the order and the former last one. -/
theorem pushBack_relinked : Relinked h (level.pushBack h o).1 o level.tail none := by
  cases htail : level.tail with
  | none =>
      simp only [pushBack, htail]
      refine ⟨(sameBodies_setPrev h o _).trans (sameBodies_setNext _ o _), ?_, ?_⟩
      · intro s hs _
        rw [setNext_of_ne _ _ _ hs, setPrev_of_ne _ _ _ hs]
      · intro s hs _
        rw [setNext_of_ne _ _ _ hs, setPrev_of_ne _ _ _ hs]
  | some t =>
      simp only [pushBack, htail]
      refine ⟨((sameBodies_setPrev h o _).trans (sameBodies_setNext _ o _)).trans
        (sameBodies_setNext _ t _), ?_, ?_⟩
      · intro s hs _
        show prevOf _ s = prevOf h s
        simp [hs]
      · intro s hs hne
        have hst : s ≠ t := fun heq => hne (by rw [heq])
        rw [setNext_of_ne _ _ _ hst, setNext_of_ne _ _ _ hs, setPrev_of_ne _ _ _ hs]

/-- The first half of `remove` changes one forward link. -/
theorem bypassNext_relinked : Relinked h (level.bypassNext h p n).1 o p none := by
  cases p with
  | none => exact ⟨SameBodies.refl h, fun _ _ _ => rfl, fun _ _ _ => rfl⟩
  | some t =>
      refine ⟨sameBodies_setNext h t n, ?_, ?_⟩
      · intro s _ _
        show prevOf (setNext h t n) s = prevOf h s
        rw [prevOf_setNext]
      · intro s _ hne
        show (setNext h t n s).next = (h s).next
        rw [setNext_of_ne _ _ _ fun heq => hne (by rw [heq])]

/-- The second half of `remove` changes one backward link. -/
theorem bypassPrev_relinked : Relinked h (level.bypassPrev h p n).1 o none n := by
  cases n with
  | none => exact ⟨SameBodies.refl h, fun _ _ _ => rfl, fun _ _ _ => rfl⟩
  | some t =>
      refine ⟨sameBodies_setPrev h t p, ?_, ?_⟩
      · intro s _ hne
        show (setPrev h t p s).prev = (h s).prev
        rw [setPrev_of_ne _ _ _ fun heq => hne (by rw [heq])]
      · intro s _ _
        show nextOf (setPrev h t p) s = nextOf h s
        rw [nextOf_setPrev]

/-- Bypassing an order leaves its own forward link alone, whatever its links are. -/
theorem bypassNext_self_next : ((level.bypassNext h p (h o).next).1 o).next = (h o).next := by
  cases p with
  | none => rfl
  | some t =>
      show nextOf (setNext h t (h o).next) o = nextOf h o
      rw [nextOf_setNext]
      by_cases hot : o = t
      · subst hot
        simp [nextOf]
      · rw [Function.update_of_ne hot]

/-- `remove` relinks the order and its two neighbours. -/
theorem remove_relinked : Relinked h (level.remove h o).1 o (h o).prev (h o).next := by
  cases hnext : bypassNext h { level with totalQty := level.totalQty - (h o).quantity } (h o).prev
    (h o).next with
  | mk h₁ level₁ =>
      have hfirst : Relinked h h₁ o (h o).prev none := by
        simpa only [hnext] using bypassNext_relinked h
          { level with totalQty := level.totalQty - (h o).quantity } o (h o).prev (h o).next
      -- the second half reads the links of the order after the first half has written
      have hself : (h₁ o).next = (h o).next := by
        simpa only [hnext] using bypassNext_self_next h
          { level with totalQty := level.totalQty - (h o).quantity } o (h o).prev
      have hsecond := bypassPrev_relinked h₁ level₁ o (h₁ o).prev (h o).next
      simp only [remove, hnext, hself]
      refine ⟨((hfirst.bodies.trans hsecond.bodies).trans (sameBodies_setNext _ _ _)).trans
        (sameBodies_setPrev _ _ _), ?_, ?_⟩
      · intro s hs hn
        rw [setPrev_of_ne _ _ _ hs, setNext_of_ne _ _ _ hs, hsecond.prev s hs hn,
          hfirst.prev s hs (by simp)]
      · intro s hs hp
        rw [setPrev_of_ne _ _ _ hs, setNext_of_ne _ _ _ hs, hsecond.next s hs (by simp),
          hfirst.next s hs hp]

end Relinking

/-! ## Queues -/

/-- The quantities of a queue, added up. -/
def queueQty (h : Heap) (q : List OrderRef) : Quantity := (q.map fun s => (h s).quantity).sum

/-- The links of the level spell out the queue `q`. -/
structure Queued (h : Heap) (level : PriceLevel) (q : List OrderRef) : Prop where
  head_eq : level.head = q.head?
  tail_eq : level.tail = q.getLast?
  linked : Linked (prevOf h) (nextOf h) none q none
  nodup : q.Nodup
  total : level.totalQty = queueQty h q

variable {h : Heap} {level : PriceLevel} {q : List OrderRef}

/-- A queue's sum depends on the quantities only. -/
theorem queueQty_congr {h' : Heap} (hq : ∀ s ∈ q, (h' s).quantity = (h s).quantity) :
    queueQty h' q = queueQty h q := by
  unfold queueQty
  rw [List.map_congr_left hq]

/-- A level is untouched by a change of orders outside its queue. -/
theorem Queued.frame {h' : Heap} (hq : Queued h level q) (hframe : ∀ s ∈ q, h' s = h s) :
    Queued h' level q := by
  refine ⟨hq.head_eq, hq.tail_eq, ?_, hq.nodup, ?_⟩
  · exact hq.linked.congr (fun s hs => congrArg Order.prev (hframe s hs))
      (fun s hs => congrArg Order.next (hframe s hs))
  · rw [hq.total, queueQty_congr fun s hs => congrArg Order.quantity (hframe s hs)]

/-- A level's queue depends on its links and total, not on its price. -/
theorem Queued.of_fields {level' : PriceLevel} (hq : Queued h level q)
    (hhead : level'.head = level.head) (htail : level'.tail = level.tail)
    (htotal : level'.totalQty = level.totalQty) : Queued h level' q :=
  ⟨hhead.trans hq.head_eq, htail.trans hq.tail_eq, hq.linked, hq.nodup, htotal.trans hq.total⟩

/-- A fresh level has the empty queue. -/
theorem queued_nil {price : Price} : Queued h ⟨price, 0, none, none⟩ [] :=
  ⟨rfl, rfl, trivial, List.nodup_nil, rfl⟩

/-- A level is empty exactly if its queue is. -/
theorem Queued.empty_iff (hq : Queued h level q) : level.empty = true ↔ q = [] := by
  unfold empty
  rw [hq.head_eq]
  cases q <;> simp

/-- A queue with a last order splits there. -/
theorem notMem_of_nodup_concat {l : List OrderRef} {t : OrderRef} (h : (l ++ [t]).Nodup) :
    t ∉ l := by
  rw [List.nodup_append] at h
  exact fun hmem => h.2.2 t hmem t (by simp) rfl

/-- `pushBack` appends to the queue, keeps the price, and touches only the links of the order and
of the former last one. -/
theorem pushBack_spec (hq : Queued h level q) {o : OrderRef} (ho : o ∉ q) :
    Queued (pushBack h level o).1 (pushBack h level o).2 (q ++ [o]) ∧
      (pushBack h level o).2.price = level.price ∧
      SameBodies h (pushBack h level o).1 ∧
      ∀ s ∉ q, s ≠ o → (pushBack h level o).1 s = h s := by
  have hrelinked := pushBack_relinked h level o
  have hbodies := hrelinked.bodies
  refine ⟨?_, price_pushBack h level o, hbodies, fun s hs hso => ?_⟩
  · rcases q.eq_nil_or_concat' with rfl | ⟨l, t, rfl⟩
    · -- the queue was empty: the order becomes head and tail
      have htail : level.tail = none := hq.tail_eq
      simp only [pushBack, htail]
      refine ⟨rfl, rfl, ?_, by simp, ?_⟩
      · simp [Linked]
      · simp [hq.total, queueQty]
    · -- the former last order is linked on to the new one
      have htail : level.tail = some t := by rw [hq.tail_eq]; simp
      have hto : t ≠ o := fun heq => ho (by simp [heq])
      simp only [pushBack, htail] at hbodies ⊢
      refine ⟨?_, by simp, ?_, ?_, ?_⟩
      · rw [hq.head_eq]
        cases l <;> simp
      · have hold : Linked (Function.update (prevOf h) o (some t))
            (Function.update (nextOf h) o none) none (l ++ [t]) none :=
          hq.linked.congr (fun s hs => Function.update_of_ne (ne_of_mem_of_not_mem hs ho) _ _)
            (fun s hs => Function.update_of_ne (ne_of_mem_of_not_mem hs ho) _ _)
        simp only [prevOf_setNext, nextOf_setNext, prevOf_setPrev, nextOf_setPrev]
        rw [linked_append]
        refine ⟨by simpa using hold.relink_next (notMem_of_nodup_concat hq.nodup) (some o), ?_⟩
        refine ⟨by simp, ?_, trivial⟩
        rw [Function.update_of_ne hto.symm]
        simp
      · exact List.Nodup.append hq.nodup (List.nodup_singleton o) (by simpa using ho)
      · simp only [hq.total, hbodies.quantity_eq]
        unfold queueQty
        simp [hbodies.quantity_eq, add_assoc]
  · refine hrelinked.other hso (fun htail => hs ?_) (by simp)
    exact List.mem_of_getLast? (hq.tail_eq.symm.trans htail)

/-- The links around a member of a queue. -/
theorem Queued.member {l r : List OrderRef} {o : OrderRef} (hq : Queued h level (l ++ o :: r)) :
    Linked (prevOf h) (nextOf h) none l (some o) ∧ (h o).prev = l.getLast? ∧
      (h o).next = r.head? ∧ Linked (prevOf h) (nextOf h) (some o) r none := by
  have hlinked := hq.linked
  rw [linked_append] at hlinked
  obtain ⟨hl, hprev, hnext, hr⟩ := hlinked
  exact ⟨by simpa using hl, by simpa [prevOf] using hprev, by simpa [nextOf] using hnext, hr⟩

/-- The first half of `remove`: the link that led forward to the order now leads to `x`. -/
theorem relink_before {l : List OrderRef} {o : OrderRef} (x : Option OrderRef)
    (hl : Linked (prevOf h) (nextOf h) none l (some o)) (hln : l.Nodup) :
    ∃ h₁, (∀ level, bypassNext h level l.getLast? x =
          (h₁, { level with head := if l = [] then x else level.head })) ∧
      Linked (prevOf h₁) (nextOf h₁) none l x ∧ ∀ s ∉ l, h₁ s = h s := by
  rcases l.eq_nil_or_concat' with rfl | ⟨l, p, rfl⟩
  · exact ⟨h, fun _ => rfl, trivial, fun _ _ => rfl⟩
  · refine ⟨setNext h p x, by simp [bypassNext], ?_, ?_⟩
    · rw [prevOf_setNext, nextOf_setNext]
      exact hl.relink_next (notMem_of_nodup_concat hln) x
    · intro s hs
      exact setNext_of_ne h p x (by rintro rfl; exact hs (by simp))

/-- The second half of `remove`: the link that led back to the order now leads to `x`. -/
theorem relink_after {r : List OrderRef} {o : OrderRef} (x : Option OrderRef)
    (hr : Linked (prevOf h) (nextOf h) (some o) r none) (hrn : r.Nodup) :
    ∃ h₁, (∀ level, bypassPrev h level x r.head? =
          (h₁, { level with tail := if r = [] then x else level.tail })) ∧
      Linked (prevOf h₁) (nextOf h₁) x r none ∧ ∀ s ∉ r, h₁ s = h s := by
  cases r with
  | nil => exact ⟨h, fun _ => rfl, trivial, fun _ _ => rfl⟩
  | cons n r =>
      refine ⟨setPrev h n x, by simp [bypassPrev], ?_, ?_⟩
      · rw [prevOf_setPrev, nextOf_setPrev]
        exact hr.relink_prev (List.nodup_cons.mp hrn).1 x
      · intro s hs
        exact setPrev_of_ne h n x (by rintro rfl; exact hs (by simp))

/-- What `remove` computes on a member of a queue. -/
theorem remove_eq {l r : List OrderRef} {o : OrderRef} (hq : Queued h level (l ++ o :: r)) :
    ∃ h₂, remove h level o = (setPrev (setNext h₂ o none) o none,
        { level with
          totalQty := level.totalQty - (h o).quantity
          head := if l = [] then r.head? else level.head
          tail := if r = [] then l.getLast? else level.tail }) ∧
      Linked (prevOf h₂) (nextOf h₂) none l r.head? ∧
      Linked (prevOf h₂) (nextOf h₂) l.getLast? r none := by
  obtain ⟨hl, hprev, hnext, hr⟩ := hq.member
  obtain ⟨hln, hrn, hdisj⟩ := List.nodup_append.mp hq.nodup
  obtain ⟨hor, hrn⟩ := List.nodup_cons.mp hrn
  have hol : o ∉ l := fun hmem => hdisj o hmem o (by simp) rfl
  have hlr : ∀ s ∈ l, s ∉ r := fun s hs hsr => hdisj s hs s (by simp [hsr]) rfl
  obtain ⟨h₁, heq₁, hl₁, hf₁⟩ := relink_before r.head? hl hln
  have ho₁ : h₁ o = h o := hf₁ o hol
  have hr₁ : Linked (prevOf h₁) (nextOf h₁) (some o) r none :=
    hr.congr (fun s hs => congrArg Order.prev (hf₁ s fun hsl => hlr s hsl hs))
      (fun s hs => congrArg Order.next (hf₁ s fun hsl => hlr s hsl hs))
  obtain ⟨h₂, heq₂, hr₂, hf₂⟩ := relink_after l.getLast? hr₁ hrn
  refine ⟨h₂, ?_, ?_, hr₂⟩
  · simp only [remove, hprev, hnext, heq₁, ho₁, heq₂]
  · exact hl₁.congr (fun s hs => congrArg Order.prev (hf₂ s (hlr s hs)))
      (fun s hs => congrArg Order.next (hf₂ s (hlr s hs)))

/-- `remove` takes a member out of the queue wherever it stands, leaves it without links, keeps
the price and the order of the rest, and touches no order outside the queue. -/
theorem remove_spec {l r : List OrderRef} {o : OrderRef} (hq : Queued h level (l ++ o :: r)) :
    Queued (remove h level o).1 (remove h level o).2 (l ++ r) ∧
      (remove h level o).2.price = level.price ∧
      SameBodies h (remove h level o).1 ∧
      ((remove h level o).1 o).prev = none ∧ ((remove h level o).1 o).next = none ∧
      ∀ s ∉ l ++ o :: r, (remove h level o).1 s = h s := by
  obtain ⟨h₂, heq, hl, hr⟩ := remove_eq hq
  have hrelinked := remove_relinked h level o
  obtain ⟨hout, hnodup⟩ := List.nodup_cons.mp (List.nodup_middle.mp hq.nodup)
  rw [heq] at hrelinked ⊢
  have hbodies := hrelinked.bodies
  refine ⟨⟨?_, ?_, ?_, ?_, ?_⟩, rfl, hbodies, by simp [setPrev], by simp [setPrev, setNext], ?_⟩
  · simp only [hq.head_eq]
    cases l <;> simp
  · simp only [hq.tail_eq]
    rcases r.eq_nil_or_concat' with rfl | ⟨r, t, rfl⟩
    · simp
    · rw [if_neg (by simp), ← List.cons_append, ← List.append_assoc, ← List.append_assoc,
        List.getLast?_concat, List.getLast?_concat]
  · simp only [prevOf_setPrev, prevOf_setNext, nextOf_setPrev, nextOf_setNext]
    rw [linked_append]
    -- the two parts keep their links, because the removed order is in neither
    have hne : ∀ s ∈ l ++ r, s ≠ o := fun s hs heq => hout (heq ▸ hs)
    refine ⟨?_, ?_⟩
    · exact (by simpa using hl : Linked _ _ none l (r.head?.or none)).congr
        (fun s hs => Function.update_of_ne (hne s (by simp [hs])) _ _)
        (fun s hs => Function.update_of_ne (hne s (by simp [hs])) _ _)
    · exact (by simpa using hr : Linked _ _ (l.getLast?.or none) r none).congr
        (fun s hs => Function.update_of_ne (hne s (by simp [hs])) _ _)
        (fun s hs => Function.update_of_ne (hne s (by simp [hs])) _ _)
  · exact hnodup
  · simp only [hq.total]
    rw [queueQty_congr fun s _ => hbodies.quantity_eq s]
    unfold queueQty
    simp only [List.map_append, List.map_cons, List.sum_append, List.sum_cons]
    ring
  · intro s hs
    obtain ⟨_, hprev, hnext, _⟩ := hq.member
    rw [List.mem_append, List.mem_cons, not_or, not_or] at hs
    refine hrelinked.other hs.2.1 ?_ ?_
    · rw [hprev]
      exact fun hlast => hs.1 (List.mem_of_getLast? hlast)
    · rw [hnext]
      exact fun hhead => hs.2.2 (List.mem_of_mem_head? hhead)

/-- `reduceHead` takes the quantity from the first order and from the total, and from nothing
else. -/
theorem reduceHead_spec {r : List OrderRef} {o : OrderRef} (hq : Queued h level (o :: r))
    (filled : Quantity) :
    reduceHead h level filled =
        .ok (Function.update h o { h o with quantity := (h o).quantity - filled },
          { level with totalQty := level.totalQty - filled }) ∧
      Queued (Function.update h o { h o with quantity := (h o).quantity - filled })
        { level with totalQty := level.totalQty - filled } (o :: r) := by
  have hor : o ∉ r := (List.nodup_cons.mp hq.nodup).1
  have hother : ∀ s ∈ r,
      Function.update h o { h o with quantity := (h o).quantity - filled } s = h s :=
    fun s hs => Function.update_of_ne (ne_of_mem_of_not_mem hs hor) _ _
  refine ⟨by simp [reduceHead, hq.head_eq], hq.head_eq, hq.tail_eq, ?_, hq.nodup, ?_⟩
  · apply hq.linked.congr
    · intro s _
      by_cases hs : s = o
      · subst hs; simp [prevOf]
      · simp [prevOf, hs]
    · intro s _
      by_cases hs : s = o
      · subst hs; simp [nextOf]
      · simp [nextOf, hs]
  · have hrest : queueQty (Function.update h o
        { h o with quantity := (h o).quantity - filled }) r = queueQty h r :=
      queueQty_congr fun s hs => congrArg Order.quantity (hother s hs)
    simp only [hq.total]
    unfold queueQty at hrest ⊢
    simp only [List.map_cons, List.sum_cons, hrest, Function.update_self]
    ring

end PriceLevel

end LimitOrderBook
