import TradingPlatform.OrderIndex
import Mathlib.Algebra.BigOperators.Group.Finset.Piecewise
import Mathlib.Algebra.Order.BigOperators.Group.List
import Mathlib.Algebra.Order.Group.Nat

/-! Conservation of quantity by order instance. The ledger lists every fill with the two
instances it joins, so that nothing here depends on IDs; volumes may wrap. -/
namespace TradingPlatform.Orderbook

open Runs

section Sweeping

variable {stops : UInt64 → Bool}

/-- What a queue takes and what it leaves make up the quantity. -/
theorem fillQueue_spent (price q : UInt64) (es : List Resting) :
    ((fillQueue price q es).fills.map fun x => x.quantity.toNat).sum + (fillQueue price q es).left.toNat =
      q.toNat := by
  fun_induction fillQueue price q es with
  | case1 => simp
  | case2 => rfl
  | case3 q e es some' covers rest ih =>
    rw [UInt64.toNat_sub_of_le _ _ covers] at ih
    have bound := UInt64.le_iff_toNat_le.mp covers
    simp only [rest,List.map_cons,List.sum_cons]
    omega
  | case4 => simp

theorem sweep_spent (q : UInt64) (levels : List Level) :
    ((sweep stops q levels).fills.map fun x => x.quantity.toNat).sum + (sweep stops q levels).left.toNat =
      q.toNat := by
  induction levels generalizing q with
  | nil => simp [sweep]
  | cons L levels ih =>
    have first := fillQueue_spent L.price q L.queue
    have rest := ih (fillQueue L.price q L.queue).left
    simp only [sweep]
    split
    · simp
    · split
      · simp only [List.map_append,List.sum_append]
        omega
      · exact first

/-- Each maker of a queue is hit once, in the order of the queue. -/
theorem fillQueue_maker_refs (price q : UInt64) (es : List Resting) :
    ((fillQueue price q es).fills.map fun x => x.maker.ref).Sublist (es.map Resting.ref) := by
  fun_induction fillQueue price q es with
  | case1 => exact List.Sublist.refl _
  | case2 => simp
  | case3 q e es some' covers rest ih => exact ih.cons_cons _
  | case4 => simp

theorem sweep_maker_refs (q : UInt64) (levels : List Level) :
    ((sweep stops q levels).fills.map fun x => x.maker.ref).Sublist (refsOf levels) := by
  induction levels generalizing q with
  | nil => simp [sweep]
  | cons L levels ih =>
    have first := fillQueue_maker_refs L.price q L.queue
    simp only [sweep,refsOf_cons]
    split
    · simp
    · split
      · rw [List.map_append]
        exact first.append (ih _)
      · exact first.trans (List.sublist_append_left _ _)

theorem fillQueue_amount (price q : UInt64) (es : List Resting) (left : ∀ e ∈ es, e.remaining ≠ 0)
    (member : x ∈ (fillQueue price q es).fills) : x.quantity ≠ 0 ∧ x.quantity ≤ x.maker.remaining := by
  fun_induction fillQueue price q es with
  | case1 => simp at member
  | case2 => simp at member
  | case3 q e es some' covers rest ih =>
    rcases List.mem_cons.mp member with rfl | later
    · exact ⟨left e (by simp),UInt64.le_refl _⟩
    · exact ih (fun d inside => left d (List.mem_cons_of_mem _ inside)) later
  | case4 q e es some' within =>
    rw [List.mem_singleton.mp member]
    exact ⟨some',UInt64.le_of_lt (UInt64.not_le.mp within)⟩

/-- A fill is positive and no larger than what its maker had left. -/
theorem sweep_amount (q : UInt64) (levels : List Level) (left : ∀ L ∈ levels, ∀ e ∈ L.queue, e.remaining ≠ 0)
    (member : x ∈ (sweep stops q levels).fills) : x.quantity ≠ 0 ∧ x.quantity ≤ x.maker.remaining := by
  induction levels generalizing q with
  | nil => simp [sweep] at member
  | cons L levels ih =>
    simp only [sweep] at member
    split at member
    · simp at member
    · split at member
      · rcases List.mem_append.mp member with here | later
        · exact fillQueue_amount L.price q L.queue (left L (by simp)) here
        · exact ih _ (fun M inside => left M (List.mem_cons_of_mem _ inside)) later
      · exact fillQueue_amount L.price q L.queue (left L (by simp)) member

end Sweeping

/-- The exact quantity of the fills an instance took part in, as maker or as taker. -/
def exactShare (fills : List Fill) (r : OrderRef) : Nat :=
  (fills.map fun f => (if f.maker = r then f.quantity.toNat else 0) + (if f.taker = r then f.quantity.toNat else 0)).sum

theorem exactShare_cons (f : Fill) (fills : List Fill) (r : OrderRef) :
    exactShare (f :: fills) r = (if f.maker = r then f.quantity.toNat else 0) +
      (if f.taker = r then f.quantity.toNat else 0) + exactShare fills r := by
  simp [exactShare]

theorem exactShare_append (xs ys : List Fill) (r : OrderRef) :
    exactShare (xs ++ ys) r = exactShare xs r + exactShare ys r := by
  simp [exactShare]

/-- The wrapped sum is the exact one as long as that fits. -/
theorem filledBy_toNat (fills : List Fill) (r : OrderRef) (apart : ∀ f ∈ fills, f.maker ≠ f.taker) :
    (filledBy fills r).toNat = exactShare fills r % 2^64 := by
  induction fills with
  | nil => rfl
  | cons f fills ih =>
    have rest := ih fun g member => apart g (List.mem_cons_of_mem _ member)
    have differ := apart f (by simp)
    have sum : filledBy (f :: fills) r = Fill.share r f + filledBy fills r := by simp [filledBy]
    have share : (Fill.share r f).toNat =
        (if f.maker = r then f.quantity.toNat else 0) + (if f.taker = r then f.quantity.toNat else 0) := by
      by_cases maker : f.maker = r
      · have taker : f.taker ≠ r := fun same => differ (maker.trans same.symm)
        simp [Fill.share,maker,taker]
      · by_cases taker : f.taker = r <;> simp [Fill.share,maker,taker]
    rw [sum,UInt64.toNat_add,rest,share]
    simp only [exactShare,List.map_cons,List.sum_cons]
    omega

theorem exactShare_taker (xs : List Execution) (taker : OrderRef) (old : ∀ x ∈ xs, x.maker.ref ≠ taker) :
    exactShare (xs.map (Execution.fill taker)) taker = (xs.map fun x => x.quantity.toNat).sum := by
  rw [exactShare,List.map_map]
  refine congrArg List.sum (List.map_congr_left fun x member => ?_)
  simp [Execution.fill,old x member]

/-- An instance is hit at most once in a sweep, so its share is that one fill. -/
theorem exactShare_hit (xs : List Execution) (taker : OrderRef) (distinct : (xs.map fun x => x.maker.ref).Nodup)
    (hit : x ∈ xs) (other : x.maker.ref ≠ taker) :
    exactShare (xs.map (Execution.fill taker)) x.maker.ref = x.quantity.toNat := by
  induction xs with
  | nil => simp at hit
  | cons y xs ih =>
    simp only [List.map_cons,List.nodup_cons] at distinct
    rw [List.map_cons,exactShare_cons]
    rcases List.mem_cons.mp hit with rfl | later
    · have none : exactShare (xs.map (Execution.fill taker)) x.maker.ref = 0 := by
        rw [exactShare,List.map_map]
        refine List.sum_eq_zero fun n member => ?_
        obtain ⟨z,inside,rfl⟩ := List.mem_map.mp member
        have apart : z.maker.ref ≠ x.maker.ref := fun same => distinct.1 (List.mem_map.mpr ⟨z,inside,same⟩)
        simp [Execution.fill,apart,other.symm]
      simp [Execution.fill,other.symm,none]
    · have apart : y.maker.ref ≠ x.maker.ref := fun same => distinct.1 (List.mem_map.mpr ⟨x,later,same.symm⟩)
      simp [Execution.fill,apart,other.symm,ih distinct.2 later]

theorem exactShare_missed (xs : List Execution) (taker r : OrderRef) (other : r ≠ taker)
    (missed : ∀ x ∈ xs, x.maker.ref ≠ r) : exactShare (xs.map (Execution.fill taker)) r = 0 := by
  rw [exactShare,List.map_map]
  refine List.sum_eq_zero fun n member => ?_
  obtain ⟨x,inside,rfl⟩ := List.mem_map.mp member
  simp [Execution.fill,missed x inside,other.symm]

theorem exactShare_maker (xs : List Execution) (taker r : OrderRef) (other : r ≠ taker)
    (distinct : (xs.map fun x => x.maker.ref).Nodup)
    (each : ∀ x ∈ xs, x.maker.ref = r → x.quantity.toNat ≤ bound) :
    exactShare (xs.map (Execution.fill taker)) r ≤ bound := by
  by_cases hit : ∃ x ∈ xs, x.maker.ref = r
  · obtain ⟨x,member,rfl⟩ := hit
    rw [exactShare_hit xs taker distinct member other]
    exact each x member rfl
  · rw [exactShare_missed xs taker r other fun x member same => hit ⟨x,member,same⟩]
    exact Nat.zero_le _

/-- Every instance's filled quantity is what the ledger says, exactly, and fits its order; a
fill is positive and joins an order processed as a buy with one processed as a sell. -/
structure Booked (ob : OrderBook) : Prop where
  filled : ∀ r < ob.heap.orderCount, (ob.heap.order r).filledQty.toNat = exactShare ob.heap.ledger r
  within : ∀ r < ob.heap.orderCount, (ob.heap.order r).filledQty ≤ (ob.heap.order r).quantity
  known : ∀ f ∈ ob.heap.ledger, f.maker < ob.heap.orderCount ∧ f.taker < ob.heap.orderCount
  positive : ∀ f ∈ ob.heap.ledger, 0 < f.quantity
  joined : ∀ f ∈ ob.heap.ledger, (ob.heap.order f.maker).side = buy ↔ (ob.heap.order f.taker).side ≠ buy

theorem new_booked : Booked newOrderBook := by
  constructor <;> simp [newOrderBook,Heap.empty]

theorem exactShare_unknown (fills : List Fill) (r : OrderRef) (unknown : ∀ f ∈ fills, f.maker ≠ r ∧ f.taker ≠ r) :
    exactShare fills r = 0 := by
  rw [exactShare]
  refine List.sum_eq_zero fun n member => ?_
  obtain ⟨f,inside,rfl⟩ := List.mem_map.mp member
  simp [unknown f inside]

section Placing

variable {ob : OrderBook} {B : Ladder} {a : OrderArgs}

/-- What the makers of a placement are on the heap. -/
theorem Sound.maker_cell (sound : Sound ob B) (fill : x ∈ (B.place a).1) :
    x.maker.ref < ob.heap.orderCount ∧ (ob.heap.order x.maker.ref).id = x.maker.id ∧
      (ob.heap.order x.maker.ref).remainingQty = x.maker.remaining ∧
      ((ob.heap.order x.maker.ref).side = buy ↔ a.side ≠ buy) := by
  obtain ⟨L,level,maker,_⟩ := sweep_makers _ _ _ fill
  have attached : L ∈ B.levels := (Ladder.mem_levels (a := a)).mpr (.inr (.inl level))
  have cell := (sound.models.rep.level L attached).entries x.maker maker
  refine ⟨sound.models.rep.orderBound _ (mem_refsOf.mpr ⟨L,attached,x.maker,maker,rfl⟩),cell.id,cell.remaining,?_⟩
  rw [cell.side]
  by_cases buying : a.side = buy
  · simp only [Ladder.opposite,buying,if_true] at level
    simpa [buying] using sound.valid.sells L level x.maker maker
  · simp only [Ladder.opposite,buying,if_false] at level
    simpa [buying] using sound.valid.buys L level x.maker maker

theorem Sound.maker_refs (sound : Sound ob B) : ((B.place a).1.map fun x => x.maker.ref).Nodup := by
  refine (sound.models.rep.orderRefs.sublist ?_).sublist (sweep_maker_refs a.quantity (B.opposite a.side))
  by_cases buying : a.side = buy
  · simp only [Ladder.opposite,buying,if_true,Ladder.levels,refsOf_append]
    exact (List.sublist_append_left _ _).trans (List.sublist_append_right _ _)
  · simp only [Ladder.opposite,buying,if_false,Ladder.levels,refsOf_append]
    exact List.sublist_append_left _ _

theorem Sound.fill_amount (sound : Sound ob B) (fill : x ∈ (B.place a).1) :
    x.quantity ≠ 0 ∧ x.quantity ≤ x.maker.remaining :=
  sweep_amount a.quantity (B.opposite a.side)
    (fun L level e entry => (sound.valid.entries L ((Ladder.mem_levels (a := a)).mpr (.inr (.inl level))) e entry).2)
    fill

/-- No instance takes more from a placement than it had left. -/
theorem Sound.share_le (sound : Sound ob B) (r : OrderRef) (bound : r < ob.heap.orderCount + 1) :
    exactShare (B.fills (.process a)) r ≤ ((newOrder ob.heap a).2.order r).remainingQty.toNat := by
  have old : ∀ x ∈ (B.place a).1, x.maker.ref < B.orderCount := fun x fill => by
    rw [← sound.models.orderCount]
    exact (sound.maker_cell fill).1
  by_cases taker : r = B.orderCount
  · subst taker
    have spent : ((B.place a).1.map fun x => x.quantity.toNat).sum + (B.sweepFor a).left.toNat =
        a.quantity.toNat := sweep_spent a.quantity (B.opposite a.side)
    have cell : ((newOrder ob.heap a).2.order B.orderCount).remainingQty = a.quantity := by
      simp [newOrder,← sound.models.orderCount,Order.remainingQty,OrderArgs.order]
    rw [cell,Ladder.fills,exactShare_taker _ _ fun x fill => (old x fill).ne]
    omega
  · have cell : (newOrder ob.heap a).2.order r = ob.heap.order r := by
      simp [newOrder,sound.models.orderCount,taker]
    rw [cell]
    refine exactShare_maker _ _ r taker sound.maker_refs fun x fill same => ?_
    subst same
    rw [(sound.maker_cell fill).2.2.1]
    exact UInt64.le_iff_toNat_le.mp (sound.fill_amount fill).2

theorem fills_apart (sound : Sound ob B) (member : f ∈ B.fills (.process a)) : f.maker ≠ f.taker := by
  obtain ⟨x,fill,rfl⟩ := List.mem_map.mp member
  have old := (sound.maker_cell fill).1
  rw [sound.models.orderCount] at old
  exact old.ne

theorem Booked.place (booked : Booked ob) (sound : Sound ob B)
    (effect : Effect (B.fills (.process a)) (newOrder ob.heap a).2 ob'.heap) : Booked ob' := by
  have count : ob'.heap.orderCount = ob.heap.orderCount + 1 := effect.orderCount
  have ledger : ob'.heap.ledger = ob.heap.ledger ++ B.fills (.process a) := effect.ledger
  have same : ∀ r < ob.heap.orderCount, (newOrder ob.heap a).2.order r = ob.heap.order r :=
    fun r old => by simp [newOrder,old.ne]
  have side : ∀ r < ob.heap.orderCount, (ob'.heap.order r).side = (ob.heap.order r).side := fun r old => by
    rw [← same r old]
    exact congrArg OrderArgs.side (effect.args r)
  have takerSide : (ob'.heap.order ob.heap.orderCount).side = a.side := by
    have terms := congrArg OrderArgs.side (effect.args ob.heap.orderCount)
    simpa [newOrder,Order.args,OrderArgs.order] using terms
  have amounts : ∀ r < ob.heap.orderCount + 1,
      ((newOrder ob.heap a).2.order r).filledQty.toNat = exactShare ob.heap.ledger r ∧
      ((newOrder ob.heap a).2.order r).filledQty ≤ ((newOrder ob.heap a).2.order r).quantity := by
    intro r bound
    rcases Nat.lt_succ_iff_lt_or_eq.mp bound with old | rfl
    · rw [same r old]
      exact ⟨booked.filled r old,booked.within r old⟩
    · have none : exactShare ob.heap.ledger ob.heap.orderCount = 0 :=
        exactShare_unknown _ _ fun f member =>
          ⟨(booked.known f member).1.ne,(booked.known f member).2.ne⟩
      simp [newOrder,OrderArgs.order,none]
  have exact : ∀ r < ob.heap.orderCount + 1, (ob'.heap.order r).filledQty.toNat = exactShare ob'.heap.ledger r ∧
      (ob'.heap.order r).filledQty ≤ (ob'.heap.order r).quantity := by
    intro r bound
    obtain ⟨before,fits⟩ := amounts r bound
    have share := sound.share_le (a := a) r bound
    have quantity : (ob'.heap.order r).quantity = ((newOrder ob.heap a).2.order r).quantity :=
      congrArg OrderArgs.quantity (effect.args r)
    have small := UInt64.toNat_lt ((newOrder ob.heap a).2.order r).quantity
    have room := UInt64.le_iff_toNat_le.mp fits
    rw [Order.remainingQty,UInt64.toNat_sub_of_le _ _ fits] at share
    have sum : (ob'.heap.order r).filledQty.toNat = exactShare ob'.heap.ledger r := by
      rw [effect.filled,UInt64.toNat_add,filledBy_toNat _ _ fun f member => fills_apart sound member,ledger,
        exactShare_append,before]
      omega
    refine ⟨sum,UInt64.le_iff_toNat_le.mpr ?_⟩
    rw [sum,quantity,ledger,exactShare_append]
    omega
  refine ⟨fun r bound => (exact r (count ▸ bound)).1,fun r bound => (exact r (count ▸ bound)).2,?_,?_,?_⟩
  · intro f member
    rw [ledger,List.mem_append] at member
    rw [count]
    rcases member with old | new
    · obtain ⟨maker,taker⟩ := booked.known f old
      exact ⟨Nat.lt_succ_of_lt maker,Nat.lt_succ_of_lt taker⟩
    · obtain ⟨x,fill,rfl⟩ := List.mem_map.mp new
      refine ⟨Nat.lt_succ_of_lt (sound.maker_cell fill).1,?_⟩
      rw [sound.models.orderCount]
      exact Nat.lt_succ_self B.orderCount
  · intro f member
    rw [ledger,List.mem_append] at member
    rcases member with old | new
    · exact booked.positive f old
    · obtain ⟨x,fill,rfl⟩ := List.mem_map.mp new
      exact UInt64.pos_iff_ne_zero.mpr (sound.fill_amount fill).1
  · intro f member
    rw [ledger,List.mem_append] at member
    rcases member with old | new
    · rw [side _ (booked.known f old).1,side _ (booked.known f old).2]
      exact booked.joined f old
    · obtain ⟨x,fill,rfl⟩ := List.mem_map.mp new
      obtain ⟨bound,_,_,faced⟩ := sound.maker_cell fill
      simp only [Execution.fill,← sound.models.orderCount]
      rw [side _ bound,takerSide]
      exact faced

end Placing

theorem Booked.unchanged (booked : Booked ob) (effect : Effect [] ob.heap ob'.heap) : Booked ob' := by
  have filled : ∀ r, (ob'.heap.order r).filledQty = (ob.heap.order r).filledQty := fun r => by
    simp [effect.filled r]
  have ledger : ob'.heap.ledger = ob.heap.ledger := by simp [effect.ledger]
  have count : ob'.heap.orderCount = ob.heap.orderCount := effect.orderCount
  have quantity : ∀ r, (ob'.heap.order r).quantity = (ob.heap.order r).quantity :=
    fun r => congrArg OrderArgs.quantity (effect.args r)
  have side : ∀ r, (ob'.heap.order r).side = (ob.heap.order r).side :=
    fun r => congrArg OrderArgs.side (effect.args r)
  refine ⟨?_,?_,?_,?_,?_⟩
  · simpa only [filled,ledger,count] using booked.filled
  · simpa only [filled,quantity,count] using booked.within
  · simpa only [ledger,count] using booked.known
  · simpa only [ledger] using booked.positive
  · simpa only [ledger,side] using booked.joined

theorem Booked.step (booked : Booked ob) (sound : Sound ob B)
    (effect : Effect (B.fills c) (grown ob.heap c) ob'.heap) : Booked ob' := by
  cases c with
  | process a => exact booked.place sound effect
  | cancel id' => exact booked.unchanged effect

theorem sum_exactShare (S : Finset OrderRef) (fills : List Fill) :
    ∑ r ∈ S, exactShare fills r = (fills.map fun f => (if f.maker ∈ S then f.quantity.toNat else 0) +
      (if f.taker ∈ S then f.quantity.toNat else 0)).sum := by
  induction fills with
  | nil => simp [exactShare]
  | cons f fills ih =>
    simp only [exactShare_cons,Finset.sum_add_distrib,Finset.sum_ite_eq,ih,List.map_cons,List.sum_cons]

def buyInstances (h : Heap) : Finset OrderRef := (Finset.range h.orderCount).filter fun r => (h.order r).side = buy

def sellInstances (h : Heap) : Finset OrderRef := (Finset.range h.orderCount).filter fun r => (h.order r).side ≠ buy

/-- What the buys have filled is what the sells have filled. -/
theorem Booked.totals (booked : Booked ob) :
    ∑ r ∈ buyInstances ob.heap, (ob.heap.order r).filledQty.toNat =
      ∑ r ∈ sellInstances ob.heap, (ob.heap.order r).filledQty.toNat := by
  have ledger (S : Finset OrderRef) (inside : ∀ r ∈ S, r < ob.heap.orderCount) :
      ∑ r ∈ S, (ob.heap.order r).filledQty.toNat = ∑ r ∈ S, exactShare ob.heap.ledger r :=
    Finset.sum_congr rfl fun r member => booked.filled r (inside r member)
  rw [ledger (buyInstances ob.heap) fun r member => by simpa using (Finset.mem_filter.mp member).1,
    ledger (sellInstances ob.heap) fun r member => by simpa using (Finset.mem_filter.mp member).1,
    sum_exactShare,sum_exactShare]
  refine congrArg List.sum (List.map_congr_left fun f member => ?_)
  obtain ⟨maker,taker⟩ := booked.known f member
  have joined := booked.joined f member
  by_cases buying : (ob.heap.order f.maker).side = buy
  · have selling := joined.mp buying
    simp [buyInstances,sellInstances,maker,taker,buying,selling]
  · have bought : (ob.heap.order f.taker).side = buy := by
      by_contra other
      exact buying (joined.mpr other)
    simp [buyInstances,sellInstances,maker,taker,buying,bought]

/-- The ledger as the trades it amounts to. -/
def ledgerTrades (h : Heap) : List Trade :=
  h.ledger.map fun f => ⟨(h.order f.maker).id,(h.order f.taker).id,f.price,f.quantity⟩

theorem ledgerTrades_step {ob' : OrderBook} (booked : Booked ob) (sound : Sound ob B)
    (effect : Effect (B.fills c) (grown ob.heap c) ob'.heap) :
    ledgerTrades ob'.heap = ledgerTrades ob.heap ++ (B.call c).1.list := by
  have kept : ∀ r < ob.heap.orderCount, (ob'.heap.order r).id = (ob.heap.order r).id := by
    intro r old
    have terms : (ob'.heap.order r).id = ((grown ob.heap c).order r).id := congrArg OrderArgs.id (effect.args r)
    rw [terms]
    cases c with
    | process a => simp [grown,newOrder,old.ne]
    | cancel id' => rfl
  have ledger : ob'.heap.ledger = ob.heap.ledger ++ B.fills c := by
    rw [effect.ledger]
    cases c <;> rfl
  rw [ledgerTrades,ledger,List.map_append]
  congr 1
  · refine List.map_congr_left fun f member => ?_
    rw [kept _ (booked.known f member).1,kept _ (booked.known f member).2]
  · cases c with
    | cancel id' => rfl
    | process a =>
      have taker : (ob'.heap.order B.orderCount).id = a.id := by
        have terms := congrArg OrderArgs.id (effect.args B.orderCount)
        simpa [grown,newOrder,← sound.models.orderCount,Order.args,OrderArgs.order] using terms
      simp only [Ladder.fills,Ladder.call,Reply.list,List.map_map]
      refine List.map_congr_left fun x fill => ?_
      obtain ⟨bound,name,_⟩ := sound.maker_cell fill
      simp only [Function.comp_apply,Execution.fill,Execution.trade,kept _ bound,name,taker]

section Frozen

variable {B : Ladder}

/-- A call queues at most the order it was made for. -/
theorem Ladder.Valid.call_refs (valid : B.Valid) (c : Call) (member : r ∈ refsOf (B.call c).2.levels) :
    r ∈ refsOf B.levels ∨ r = B.orderCount := by
  obtain ⟨L,level,e,entry,rfl⟩ := mem_refsOf.mp member
  cases c with
  | process a =>
    rcases Ladder.mem_place_levels.mp level with own | swept | detached
    · exact valid.ownAfter_forall (a := a) (fun _ e => e.ref ∈ refsOf B.levels ∨ e.ref = B.orderCount)
        (fun M inside d queued => .inl (mem_refsOf.mpr ⟨M,(Ladder.mem_levels (a := a)).mpr (.inl inside),d,queued,rfl⟩))
        (fun _ => .inr rfl) L own e entry
    · have before := sweep_refs (stopsAt a.order) a.quantity (B.opposite a.side) e.ref
        (mem_refsOf.mpr ⟨L,swept,e,entry,rfl⟩)
      obtain ⟨M,inside,d,queued,same⟩ := mem_refsOf.mp before
      exact .inl (mem_refsOf.mpr ⟨M,(Ladder.mem_levels (a := a)).mpr (.inr (.inl inside)),d,queued,same⟩)
    · exact .inl (mem_refsOf.mpr ⟨L,(Ladder.mem_levels (a := a)).mpr (.inr (.inr detached)),e,entry,rfl⟩)
  | cancel id' =>
    obtain ⟨M,inside,queued⟩ := Ladder.cancel_levels level entry
    exact .inl (mem_refsOf.mpr ⟨M,inside,e,queued,rfl⟩)

/-- An instance in no queue keeps its filled quantity over a call, and stays out. -/
theorem Sound.frozen_step {ob' : OrderBook} (sound : Sound ob B) (bound : r < ob.heap.orderCount)
    (out : r ∉ refsOf B.levels) (effect : Effect (B.fills c) (grown ob.heap c) ob'.heap) :
    r < ob'.heap.orderCount ∧ r ∉ refsOf (B.call c).2.levels ∧
      (ob'.heap.order r).filledQty = (ob.heap.order r).filledQty := by
  have old : r < B.orderCount := by rwa [← sound.models.orderCount]
  refine ⟨?_,fun member => ?_,?_⟩
  · rw [effect.orderCount]
    cases c with
    | process a => exact Nat.lt_succ_of_lt bound
    | cancel id' => exact bound
  · rcases sound.valid.call_refs c member with queued | new
    · exact out queued
    · exact old.ne new
  · rw [effect.filled]
    cases c with
    | process a =>
      have none : filledBy (B.fills (.process a)) r = 0 := by
        refine List.sum_eq_zero fun share member => ?_
        obtain ⟨f,logged,rfl⟩ := List.mem_map.mp member
        obtain ⟨x,fill,rfl⟩ := List.mem_map.mp logged
        have maker : x.maker.ref ≠ r := by
          rintro rfl
          obtain ⟨L,level,entry,_⟩ := sweep_makers _ _ _ fill
          exact out (mem_refsOf.mpr ⟨L,(Ladder.mem_levels (a := a)).mpr (.inr (.inl level)),x.maker,entry,rfl⟩)
        simp [Fill.share,Execution.fill,maker,old.ne']
      rw [none]
      simp [grown,newOrder,bound.ne]
    | cancel id' => simp [Ladder.fills,grown]

theorem Sound.frozen_run (sound : Sound ob B) (bound : r < ob.heap.orderCount) (out : r ∉ refsOf B.levels)
    (result : Runs.run Orderbook.call calls ob = some (replies,ob')) :
    (ob'.heap.order r).filledQty = (ob.heap.order r).filledQty := by
  induction calls generalizing ob B replies with
  | nil =>
    obtain ⟨_,rfl⟩ := Prod.mk.inj (Option.some.inj result)
    rfl
  | cons c calls ih =>
    obtain ⟨reply,later,m,first,rest,_⟩ := run_cons_inv result
    obtain ⟨ob1,first',after,effect⟩ := sound.step c
    obtain ⟨_,rfl⟩ := outcome_unique first first'
    obtain ⟨bound',out',same⟩ := sound.frozen_step bound out effect
    exact (ih after bound' out' rest).trans same

/-- The terms of an order never change. -/
theorem Sound.args_run (sound : Sound ob B) (bound : r < ob.heap.orderCount)
    (result : Runs.run Orderbook.call calls ob = some (replies,ob')) :
    (ob'.heap.order r).args = (ob.heap.order r).args := by
  induction calls generalizing ob B replies with
  | nil =>
    obtain ⟨_,rfl⟩ := Prod.mk.inj (Option.some.inj result)
    rfl
  | cons c calls ih =>
    obtain ⟨reply,later,m,first,rest,_⟩ := run_cons_inv result
    obtain ⟨ob1,first',after,effect⟩ := sound.step c
    obtain ⟨_,rfl⟩ := outcome_unique first first'
    have grownBound : r < (grown ob.heap c).orderCount := by
      cases c with
      | process a => exact Nat.lt_succ_of_lt bound
      | cancel id' => exact bound
    have same : ((grown ob.heap c).order r).args = (ob.heap.order r).args := by
      cases c with
      | process a => simp [grown,newOrder,bound.ne]
      | cancel id' => rfl
    rw [ih after (effect.orderCount ▸ grownBound) rest,effect.args,same]

/-- A filled instance is in no queue. -/
theorem Sound.filled_out (sound : Sound ob B) (filled : (ob.heap.order r).remainingQty = 0) : r ∉ refsOf B.levels := by
  intro member
  obtain ⟨L,level,e,entry,rfl⟩ := mem_refsOf.mp member
  have left := (sound.valid.entries L level e entry).2
  rw [((sound.models.rep.level L level).entries e entry).remaining] at filled
  exact left filled

/-- A cancelled instance is in no queue. -/
theorem Ladder.Valid.cancelled_out (valid : B.Valid) (distinct : (refsOf B.levels).Nodup)
    (known : B.orders id' = some r) : r ∉ refsOf (B.cancel id').2.levels := by
  obtain ⟨L,e,found,_,_,rfl,rfl⟩ := valid.cancel_target distinct known
  have stripped : e.ref ∉ refsOf (B.strip e.ref e.id).levels := by
    intro member
    rw [strip_levels] at member
    obtain ⟨M,level,d,queued,same⟩ := mem_refsOf.mp member
    obtain ⟨N,_,rfl⟩ := List.mem_map.mp level
    exact absurd same (by simpa using (List.mem_filter.mp queued).2)
  simp only [Ladder.cancel,known,Option.bind_some,found]
  split
  · intro member
    obtain ⟨M,level,rest⟩ := mem_refsOf.mp member
    exact stripped (mem_refsOf.mpr ⟨M,(drop_levels _ _ _).mem_iff.mpr level,rest⟩)
  · exact stripped

end Frozen

theorem runCalls_booked (calls : List Call) : ∃ replies ob B, runCalls calls = some (replies,ob) ∧ Sound ob B ∧
    Booked ob ∧ ledgerTrades ob.heap = replies.flatMap Reply.list := by
  obtain ⟨replies,ob,result,B,sound,booked,trades⟩ := run_accumulates
    (fun replies ob => ∃ B, Sound ob B ∧ Booked ob ∧ ledgerTrades ob.heap = replies.flatMap Reply.list)
    (fun replies ob c holds => by
      obtain ⟨B,sound,booked,trades⟩ := holds
      obtain ⟨ob',step,after,effect⟩ := sound.step c
      refine ⟨_,ob',step,_,after,booked.step sound effect,?_⟩
      rw [ledgerTrades_step booked sound effect,trades]
      simp)
    calls [] ⟨Ladder.empty,new_sound,new_booked,rfl⟩
  exact ⟨replies,ob,B,result,sound,booked,trades⟩

/-- Conservation of quantity over whole runs, by instance. -/
theorem runCalls_conserves (calls : List Call) : ∃ replies ob, runCalls calls = some (replies,ob) ∧ Booked ob ∧
    ledgerTrades ob.heap = replies.flatMap Reply.list ∧
    ∑ r ∈ buyInstances ob.heap, (ob.heap.order r).filledQty.toNat =
      ∑ r ∈ sellInstances ob.heap, (ob.heap.order r).filledQty.toNat ∧
    (∀ front rest replies' ob', calls = front ++ rest → runCalls front = some (replies',ob') →
      ∀ r < ob'.heap.orderCount, (ob'.heap.order r).remainingQty = 0 →
        (ob.heap.order r).filledQty = (ob'.heap.order r).filledQty) ∧
    ∀ front id' rest replies' ob', calls = front ++ .cancel id' :: rest → runCalls front = some (replies',ob') →
      (cancel ob' id').1 = true → ∀ r, ob'.orders id' = some r →
        (ob.heap.order r).filledQty = (ob'.heap.order r).filledQty := by
  obtain ⟨replies,ob,_,result,_,booked,trades⟩ := runCalls_booked calls
  refine ⟨replies,ob,result,booked,trades,booked.totals,?_,?_⟩
  · rintro front rest replies' ob' rfl before r bound filled
    obtain ⟨B,_,sound,later⟩ := runCalls_resume before result
    exact sound.frozen_run bound (sound.filled_out filled) later
  · rintro front id' rest replies' ob' rfl before _ r known
    obtain ⟨B,_,sound,later⟩ := runCalls_resume before result
    obtain ⟨reply,_,ob1,step,remaining,_⟩ := run_cons_inv later
    obtain ⟨ob2,step',after,effect⟩ := sound.step (.cancel id')
    obtain ⟨_,rfl⟩ := outcome_unique step step'
    rw [sound.models.orders] at known
    have queued := sound.valid.live id' r known
    obtain ⟨L,level,e,entry,rfl,_⟩ := queued
    have bound : e.ref < ob'.heap.orderCount :=
      sound.models.rep.orderBound _ (mem_refsOf.mpr ⟨L,level,e,entry,rfl⟩)
    have same : (ob1.heap.order e.ref).filledQty = (ob'.heap.order e.ref).filledQty := by
      simp [effect.filled,Ladder.fills,grown]
    have bound' : e.ref < ob1.heap.orderCount := by
      rw [effect.orderCount]
      exact bound
    exact (after.frozen_run bound' (sound.valid.cancelled_out sound.models.rep.orderRefs known) remaining).trans same

end TradingPlatform.Orderbook
