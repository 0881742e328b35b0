import TradingPlatform.Greedy
import TradingPlatform.Ledger
import TradingPlatform.CancelRoute

/-! Price-time priority as an allocation rule. An order is served by the other side's line:
best price first, and at one price in the order of the queue. The rule is greedy, so that an
order never overtakes another one that still waits in its line. No assumption is made on IDs,
side codes or quantities; volumes may wrap. -/
namespace TradingPlatform.Orderbook

open Runs Greedy

/-- What the orders of a queue ask for. -/
def offers (es : List Resting) : List (Resting × Nat) := es.map fun e => (e,e.remaining.toNat)

def Execution.served (x : Resting × Nat) : Execution := ⟨x.1,x.1.price,UInt64.ofNat x.2⟩

theorem offers_append (es ds : List Resting) : offers (es ++ ds) = offers es ++ offers ds := by
  simp [offers]

theorem demand_offers (es : List Resting) : demand (offers es) = exactVolume es := by
  simp [offers,demand,exactVolume,Function.comp_def]

theorem fillQueue_serves (price q : UInt64) (es : List Resting) (priced : ∀ e ∈ es, e.price = price) :
    (fillQueue price q es).fills = (serve q.toNat (offers es)).map Execution.served := by
  fun_induction fillQueue price q es with
  | case1 => rfl
  | case2 => simp
  | case3 q e es some' covers rest ih =>
    have positive : q.toNat ≠ 0 := fun zero => some' (UInt64.toNat_inj.mp zero)
    have enough := UInt64.le_iff_toNat_le.mp covers
    have later := ih fun d member => priced d (List.mem_cons_of_mem _ member)
    rw [UInt64.toNat_sub_of_le _ _ covers] at later
    have first : offers (e :: es) = (e,e.remaining.toNat) :: offers es := rfl
    simp only [rest,later,first,serve,if_neg positive,if_pos enough,List.map_cons,Execution.served,
      priced e List.mem_cons_self,UInt64.ofNat_toNat]
  | case4 q e es some' within =>
    have positive : q.toNat ≠ 0 := fun zero => some' (UInt64.toNat_inj.mp zero)
    have short : ¬e.remaining.toNat ≤ q.toNat := fun covers => within (UInt64.le_iff_toNat_le.mpr covers)
    have first : offers (e :: es) = (e,e.remaining.toNat) :: offers es := rfl
    simp only [first,serve,if_neg positive,if_neg short,List.map_cons,List.map_nil,Execution.served,
      priced e List.mem_cons_self,UInt64.ofNat_toNat]

/-- A sweep serves the levels up to the first one that stops it. A level that is left with
orders in it was left by a spent taker, whether its wrapped volume shows them or not. -/
theorem sweep_serves (stops : UInt64 → Bool) (q : UInt64) (levels : List Level)
    (priced : ∀ L ∈ levels, ∀ e ∈ L.queue, e.price = L.price) :
    (sweep stops q levels).fills = (serve q.toNat
      (offers ((levels.takeWhile fun L => !stops L.price).flatMap Level.queue))).map Execution.served := by
  induction levels generalizing q with
  | nil => rfl
  | cons L levels ih =>
    by_cases zero : q = 0
    · simp [zero,sweep_zero]
    by_cases halts : stops L.price = true
    · simp [sweep,halts,offers,serve]
    · have first := fillQueue_serves L.price q L.queue (priced L List.mem_cons_self)
      have left := fillQueue_left_exact L.price q L.queue
      have later := ih (fillQueue L.price q L.queue).left fun M member => priced M (List.mem_cons_of_mem _ member)
      rw [List.takeWhile_cons_of_pos (by simpa using halts),List.flatMap_cons,offers_append,serve_append,
        demand_offers,← left,List.map_append,← first]
      simp only [sweep,zero,halts,false_or,Bool.false_eq_true,if_false]
      split
      · rw [later]
      · rename_i holds
        rw [fillQueue_left_of_volume L q holds]
        simp

/-- The levels that stop an order come after those that do not. -/
theorem takeWhile_reached {a : OrderArgs} {levels : List Level} (sorted : SortedBy (!decide (a.side = buy)) levels) :
    levels.takeWhile (fun L => !stopsAt a.order L.price) = levels.filter fun L => !stopsAt a.order L.price := by
  induction levels with
  | nil => rfl
  | cons L levels ih =>
    by_cases stops : stopsAt a.order L.price = true
    · have none : (L :: levels).filter (fun L => !stopsAt a.order L.price) = [] :=
        List.filter_eq_nil_iff.mpr fun M member => by simp [stopsAt_all sorted stops M member]
      rw [none,List.takeWhile_cons_of_neg (by simpa using stops)]
    · rw [List.takeWhile_cons_of_pos (by simpa using stops),List.filter_cons_of_pos (by simpa using stops),
        ih (List.pairwise_cons.mp sorted).2]

/-- The other side's orders that an incoming order may trade with, in the order in which they
are served. -/
def Ladder.reached (B : Ladder) (a : OrderArgs) : List Resting :=
  ((B.opposite a.side).takeWhile fun L => !stopsAt a.order L.price).flatMap Level.queue

theorem Ladder.Valid.place_serves (valid : Ladder.Valid B) (a : OrderArgs) :
    (B.place a).1 = (serve a.quantity.toNat (offers (B.reached a))).map Execution.served :=
  sweep_serves _ _ _ fun L level e entry => (valid.entries L (Ladder.opposite_levels level) e entry).1

theorem Ladder.reached_line (B : Ladder) (a : OrderArgs) :
    (B.reached a).map Resting.ref <+: refsOf (B.opposite a.side) := by
  obtain ⟨back,split⟩ := List.takeWhile_prefix (l := B.opposite a.side) fun L => !stopsAt a.order L.price
  refine ⟨refsOf back,?_⟩
  have front : (B.reached a).map Resting.ref =
      refsOf ((B.opposite a.side).takeWhile fun L => !stopsAt a.order L.price) := by
    rw [Ladder.reached,refsOf,List.map_flatMap]
    rfl
  rw [front,← refsOf_append,split]

theorem Ladder.Valid.reached_wants (valid : Ladder.Valid B) (a : OrderArgs) : ∀ x ∈ offers (B.reached a), 0 < x.2 := by
  intro x member
  obtain ⟨e,inside,rfl⟩ := List.mem_map.mp member
  obtain ⟨L,taken,entry⟩ := List.mem_flatMap.mp inside
  have level := (List.takeWhile_prefix _).subset taken
  have left := (valid.entries L (Ladder.opposite_levels level) e entry).2
  exact Nat.pos_of_ne_zero fun zero => left (UInt64.toNat_inj.mp zero)

/-- A side's orders in the order in which they are served. -/
def OrderBook.line (ob : OrderBook) (levels : List LimitRef) : List OrderRef := levels.flatMap (queueRefs ob.heap)

theorem Sound.line (sound : Sound ob B) (inside : ∀ L ∈ levels, L ∈ B.levels) :
    ob.line (levels.map Level.ref) = refsOf levels := by
  rw [OrderBook.line,List.flatMap_map,refsOf]
  exact List.flatMap_congr fun L member => sound.queueRefs (inside L member)

/-- The other side's orders at prices that do not stop an order, with what each has left. -/
def matchable (ob : OrderBook) (a : OrderArgs) : List (OrderRef × Nat) :=
  ((ob.line (ob.opposite a.side)).filter fun r => !stopsAt a.order (ob.heap.order r).price).map
    fun r => (r,(ob.heap.order r).remainingQty.toNat)

/-- What the rule makes of an incoming order: whom it trades with, and how much. -/
def allocation (ob : OrderBook) (a : OrderArgs) : List (OrderRef × Nat) := serve a.quantity.toNat (matchable ob a)

theorem Sound.matchable (sound : Sound ob B) (a : OrderArgs) :
    Orderbook.matchable ob a = (offers (B.reached a)).map (Prod.map Resting.ref id) := by
  have entry : ∀ L ∈ B.opposite a.side, ∀ e ∈ L.queue, (ob.heap.order e.ref).price = L.price ∧
      (ob.heap.order e.ref).remainingQty = e.remaining := by
    intro L level e queued
    have inside := Ladder.opposite_levels level
    have cell := (sound.models.rep.level L inside).entries e queued
    exact ⟨cell.price.trans (sound.valid.entries L inside e queued).1,cell.remaining⟩
  have line : ob.line (ob.opposite a.side) = refsOf (B.opposite a.side) := by
    rw [sound.opposite]
    exact sound.line fun L level => Ladder.opposite_levels level
  rw [Orderbook.matchable,line,Ladder.reached,takeWhile_reached (sound.valid.opposite_sorted a.side)]
  generalize B.opposite a.side = levels at entry
  induction levels with
  | nil => rfl
  | cons L levels ih =>
    have later := ih fun M member => entry M (List.mem_cons_of_mem _ member)
    have here := entry L List.mem_cons_self
    have same : L.refs.filter (fun r => !stopsAt a.order (ob.heap.order r).price) =
        if stopsAt a.order L.price then [] else L.refs := by
      by_cases stops : stopsAt a.order L.price = true
      · simp only [stops,if_true]
        refine List.filter_eq_nil_iff.mpr fun r member => ?_
        obtain ⟨e,queued,rfl⟩ := List.mem_map.mp member
        simp [(here e queued).1,stops]
      · simp only [stops,Bool.false_eq_true,if_false]
        refine List.filter_eq_self.mpr fun r member => ?_
        obtain ⟨e,queued,rfl⟩ := List.mem_map.mp member
        simpa [(here e queued).1] using stops
    rw [refsOf_cons,List.filter_append,List.map_append,later,same]
    by_cases stops : stopsAt a.order L.price = true
    · simp [stops]
    · rw [List.filter_cons_of_pos (by simpa using stops),List.flatMap_cons,offers_append,List.map_append]
      congr 1
      simp only [stops,Bool.false_eq_true,if_false,Level.refs,offers,List.map_map]
      refine List.map_congr_left fun e queued => ?_
      simp [(here e queued).2]

theorem Sound.allocation (sound : Sound ob B) (a : OrderArgs) :
    Orderbook.allocation ob a = (serve a.quantity.toNat (offers (B.reached a))).map (Prod.map Resting.ref id) := by
  rw [Orderbook.allocation,sound.matchable,serve_map]

section Serving

variable {ob : OrderBook} {B : Ladder} {a : OrderArgs}

theorem Ladder.served_offer (member : x ∈ serve a.quantity.toNat (offers (B.reached a))) :
    x.1 ∈ B.reached a ∧ x.2 ≤ x.1.remaining.toNat := by
  obtain ⟨n,offered,bound⟩ := serve_within (k := x.1) (m := x.2) member
  obtain ⟨e,inside,same⟩ := List.mem_map.mp offered
  obtain ⟨rfl,rfl⟩ := Prod.mk.inj same
  exact ⟨inside,bound⟩

theorem exactShare_served (xs : List (Resting × Nat)) (taker r : OrderRef) (other : r ≠ taker)
    (small : ∀ x ∈ xs, x.2 < 2^64) :
    exactShare ((xs.map Execution.served).map (Execution.fill taker)) r =
      portion (xs.map (Prod.map Resting.ref id)) r := by
  induction xs with
  | nil => rfl
  | cons x xs ih =>
    have later := ih fun y member => small y (List.mem_cons_of_mem _ member)
    have amount : (UInt64.ofNat x.2).toNat = x.2 := UInt64.toNat_ofNat_of_lt' (small x List.mem_cons_self)
    rw [List.map_cons,List.map_cons,exactShare_cons,later]
    by_cases hit : x.1.ref = r
    · simp [Execution.fill,Execution.served,hit,other.symm,amount,portion]
    · simp [Execution.fill,Execution.served,hit,other.symm,portion]

theorem Sound.share_old (sound : Sound ob B) (old : r < ob.heap.orderCount) :
    exactShare (B.fills (.process a)) r = portion (Orderbook.allocation ob a) r := by
  have other : r ≠ B.orderCount := by
    rw [← sound.models.orderCount]
    exact old.ne
  rw [Ladder.fills,sound.valid.place_serves,exactShare_served _ _ _ other,sound.allocation]
  intro x member
  exact Nat.lt_of_le_of_lt (Ladder.served_offer member).2 (UInt64.toNat_lt _)

theorem Sound.share_taker (sound : Sound ob B) :
    exactShare (B.fills (.process a)) ob.heap.orderCount = min a.quantity.toNat (demand (Orderbook.matchable ob a)) := by
  have old : ∀ x ∈ (B.place a).1, x.maker.ref ≠ B.orderCount := fun x fill => by
    rw [← sound.models.orderCount]
    exact (sound.maker_cell fill).1.ne
  have spent : ((B.place a).1.map fun x => x.quantity.toNat).sum + (B.sweepFor a).left.toNat = a.quantity.toNat :=
    sweep_spent a.quantity (B.opposite a.side)
  have left := sound.valid.left_exact a
  have wanted : demand (Orderbook.matchable ob a) = B.crossing a := by
    rw [sound.matchable,demand,List.map_map,Ladder.reached,takeWhile_reached (sound.valid.opposite_sorted a.side),
      Ladder.crossing]
    simp [offers,Function.comp_def,List.flatMap_def,List.sum_flatten,exactVolume]
  rw [sound.models.orderCount,Ladder.fills,exactShare_taker _ _ old,wanted]
  omega

end Serving

/-- The trade between a waiting order and the order it is allocated to. -/
def allocatedTrade (ob : OrderBook) (a : OrderArgs) (x : OrderRef × Nat) : Trade :=
  ⟨(ob.heap.order x.1).id,a.id,(ob.heap.order x.1).price,UInt64.ofNat x.2⟩

theorem Sound.trades (sound : Sound ob B) (a : OrderArgs) :
    (B.place a).1.map (Execution.trade a.id) = (Orderbook.allocation ob a).map (allocatedTrade ob a) := by
  rw [sound.valid.place_serves,sound.allocation,List.map_map,List.map_map]
  refine List.map_congr_left fun x member => ?_
  obtain ⟨L,taken,entry⟩ := List.mem_flatMap.mp (Ladder.served_offer member).1
  have level := Ladder.opposite_levels ((List.takeWhile_prefix _).subset taken)
  have cell := (sound.models.rep.level L level).entries x.1 entry
  simp [Execution.trade,Execution.served,allocatedTrade,cell.id,cell.price]

/-- Every order is matched by the rule. -/
theorem place_in_priority (calls : List Call) (a : OrderArgs) : ∃ replies ob ob', runCalls calls = some (replies,ob) ∧
    place ob a = some ((allocation ob a).map (allocatedTrade ob a),ob') ∧
    (∀ r < ob.heap.orderCount, (ob'.heap.order r).filledQty.toNat =
      (ob.heap.order r).filledQty.toNat + portion (allocation ob a) r) ∧
    (ob'.heap.order ob.heap.orderCount).filledQty.toNat = min a.quantity.toNat (demand (matchable ob a)) := by
  obtain ⟨replies,ob,B,result,sound,booked,_⟩ := runCalls_booked calls
  obtain ⟨ob',step,after,effect⟩ := sound.step (.process a)
  have placed : place ob a = some ((B.place a).1.map (Execution.trade a.id),ob') := by
    obtain ⟨⟨trades,ob1⟩,placed,same⟩ := Option.map_eq_some_iff.mp step
    obtain ⟨list,rfl⟩ := Prod.mk.inj same
    rw [placed,Reply.trades.inj list]
  have booked' : Booked ob' := booked.place sound effect
  have count : ob'.heap.orderCount = ob.heap.orderCount + 1 := effect.orderCount
  have ledger : ob'.heap.ledger = ob.heap.ledger ++ B.fills (.process a) := effect.ledger
  refine ⟨replies,ob,ob',result,by rw [placed,sound.trades],fun r old => ?_,?_⟩
  · rw [booked'.filled r (by omega),ledger,exactShare_append,booked.filled r old,sound.share_old old]
  · have new : exactShare ob.heap.ledger ob.heap.orderCount = 0 :=
      exactShare_unknown _ _ fun f member => ⟨(booked.known f member).1.ne,(booked.known f member).2.ne⟩
    rw [booked'.filled _ (by omega),ledger,exactShare_append,new,sound.share_taker,Nat.zero_add]

section Turns

variable {ob ob' : OrderBook} {B : Ladder} {c : Call}

theorem sweep_line (stops : UInt64 → Bool) (q : UInt64) (levels : List Level) :
    refsOf (sweep stops q levels).makers <:+ refsOf levels := by
  induction levels generalizing q with
  | nil => simp [sweep]
  | cons L levels ih =>
    simp only [sweep]
    split
    · exact List.suffix_refl _
    · split
      · rw [refsOf_cons]
        exact (ih _).trans (List.suffix_append _ _)
      · rw [refsOf_cons,refsOf_cons]
        obtain ⟨front,split⟩ := fillQueue_suffix L.price q L.queue
        refine ⟨front,?_⟩
        simp only [Level.refs]
        rw [← split,List.append_assoc]

theorem settle_line (d : Bool) (fresh : LimitRef) (e : Resting) (levels : List Level) :
    (refsOf levels).Sublist (refsOf (settle d fresh e levels)) := by
  have parts := List.takeWhile_append_dropWhile (p := fun L : Level => precedes d L.price e.price) (l := levels)
  rw [← congrArg refsOf parts,settle,refsOf_append,refsOf_append]
  refine List.Sublist.append_left ?_ _
  split
  · rename_i none
    simp [none]
  · rename_i L back some'
    rw [some']
    split
    · simp only [refsOf_cons,Level.refs,List.map_append]
      exact (List.sublist_append_left _ _).append_right _
    · rw [refsOf_cons ⟨fresh,e.price,[e]⟩]
      exact List.sublist_append_right _ _

theorem refsOf_sublist (fewer : List.Sublist xs ys) : (refsOf xs).Sublist (refsOf ys) := by
  induction fewer with
  | slnil => exact List.Sublist.refl _
  | cons L fewer ih =>
    rw [refsOf_cons]
    exact ih.trans (List.sublist_append_right _ _)
  | cons_cons L fewer ih =>
    rw [refsOf_cons,refsOf_cons]
    exact ih.append_left _

/-- A cancel only takes orders out of a line. -/
theorem Ladder.cancel_line (B : Ladder) (id' : GoString) (side : Side) :
    (refsOf ((B.cancel id').2.own side)).Sublist (refsOf (B.own side)) := by
  have stripped (r : OrderRef) (name : GoString) :
    (refsOf ((B.strip r name).own side)).Sublist (refsOf (B.own side)) := by
    by_cases buying : side = buy
    · simp only [Ladder.own,buying,if_true,Ladder.strip,refsOf_strip]
      exact List.filter_sublist
    · simp only [Ladder.own,buying,if_false,Ladder.strip,refsOf_strip]
      exact List.filter_sublist
  have dropped (B : Ladder) (s : Side) (p : UInt64) :
    (refsOf ((B.dropLevel s p).own side)).Sublist (refsOf (B.own side)) := by
    by_cases buying : side = buy
    · simpa only [Ladder.own,buying,if_true] using refsOf_sublist (dropLevel_bids B s p)
    · simpa only [Ladder.own,buying,if_false] using refsOf_sublist (dropLevel_asks B s p)
  simp only [Ladder.cancel]
  split
  · exact List.Sublist.refl _
  · split
    · exact (dropped _ _ _).trans (stripped _ _)
    · exact stripped _ _

/-- What a placement does to the line of its own side and to the line it faces. -/
theorem Ladder.place_near (B : Ladder) (a : OrderArgs) (same : side = buy ↔ a.side = buy) :
    (B.place a).2.own side = B.ownAfter a ∧ B.own side = B.own a.side := by
  by_cases buying : a.side = buy
  · simp [Ladder.own,Ladder.place,same.mpr buying,buying]
  · have selling : side ≠ buy := fun bought => buying (same.mp bought)
    simp [Ladder.own,Ladder.place,selling,buying]

theorem Ladder.place_facing (B : Ladder) (a : OrderArgs) (other : ¬(side = buy ↔ a.side = buy)) :
    (B.place a).2.own side = (B.sweepFor a).makers ∧ B.own side = B.opposite a.side := by
  by_cases buying : a.side = buy
  · have selling : side ≠ buy := fun bought => other (by simp [bought,buying])
    simp [Ladder.own,Ladder.opposite,Ladder.place,selling,buying]
  · have bought : side = buy := by
      by_contra selling
      exact other (by simp [selling,buying])
    simp [Ladder.own,Ladder.opposite,Ladder.place,bought,buying]

theorem Ladder.ownAfter_line (B : Ladder) (a : OrderArgs) : (refsOf (B.own a.side)).Sublist (refsOf (B.ownAfter a)) := by
  rw [Ladder.ownAfter]
  split
  · exact settle_line _ _ _ _
  · exact List.Sublist.refl _

/-- A line gains at most the order a call was made for. -/
theorem Ladder.Valid.call_line (valid : B.Valid) (c : Call) (side : Side)
    (member : r ∈ refsOf ((B.call c).2.own side)) : r ∈ refsOf (B.own side) ∨ r = B.orderCount := by
  cases c with
  | cancel id' => exact .inl ((B.cancel_line id' side).subset member)
  | process a =>
    by_cases same : side = buy ↔ a.side = buy
    · obtain ⟨after,before⟩ := B.place_near a same
      rw [Ladder.call,after] at member
      obtain ⟨L,level,e,entry,rfl⟩ := mem_refsOf.mp member
      rw [before]
      exact valid.ownAfter_forall (a := a) (fun _ e => e.ref ∈ refsOf (B.own a.side) ∨ e.ref = B.orderCount)
        (fun M inside d queued => .inl (mem_refsOf.mpr ⟨M,inside,d,queued,rfl⟩)) (fun _ => .inr rfl) L level e entry
    · obtain ⟨after,before⟩ := B.place_facing a same
      rw [Ladder.call,after] at member
      rw [before]
      exact .inl ((sweep_line _ _ _).subset member)

/-- An instance that no fill of a placement names keeps its filled quantity. -/
theorem Sound.missed (sound : Sound ob B) (old : r < ob.heap.orderCount) (missed : ∀ x ∈ (B.place a).1, x.maker.ref ≠ r)
    (effect : Effect (B.fills (.process a)) (newOrder ob.heap a).2 ob'.heap) :
    (ob'.heap.order r).filledQty = (ob.heap.order r).filledQty := by
  have other : r ≠ B.orderCount := by
    rw [← sound.models.orderCount]
    exact old.ne
  have none : filledBy (B.fills (.process a)) r = 0 := by
    refine List.sum_eq_zero fun share member => ?_
    obtain ⟨f,logged,rfl⟩ := List.mem_map.mp member
    obtain ⟨x,fill,rfl⟩ := List.mem_map.mp logged
    simp [Fill.share,Execution.fill,missed x fill,other.symm]
  rw [effect.filled,none]
  simp [newOrder,old.ne]

theorem Sound.lines_distinct (sound : Sound ob B) (side : Side) :
    (refsOf (B.own side) ++ refsOf (B.opposite side)).Nodup := by
  have sides : (refsOf B.bids ++ refsOf B.asks).Nodup := by
    refine sound.models.rep.orderRefs.sublist ?_
    simp only [Ladder.levels,refsOf_append]
    exact (List.sublist_append_left _ _).append_left _
  by_cases buying : side = buy
  · simpa only [Ladder.own,Ladder.opposite,buying,if_true] using sides
  · simpa only [Ladder.own,Ladder.opposite,buying,if_false] using List.perm_append_comm.nodup_iff.mp sides

/-- An order that trades has seen those ahead of it filled. -/
theorem Sound.filled_ahead (sound : Sound ob B) (ahead : [x,y].Sublist (refsOf (B.opposite a.side)))
    (fill : f ∈ (B.place a).1) (hit : f.maker.ref = y) : x ∉ refsOf (B.sweepFor a).makers := by
  have distinct := (List.nodup_append.mp (sound.lines_distinct a.side)).2.1
  rw [sound.valid.place_serves] at fill
  obtain ⟨z,served,rfl⟩ := List.mem_map.mp fill
  have inside : y ∈ (B.reached a).map Resting.ref := hit ▸ List.mem_map_of_mem (Ladder.served_offer served).1
  have reached := ahead_in_front distinct (B.reached_line a) ahead inside
  obtain ⟨pair,sub,same⟩ := List.sublist_map_iff.mp reached
  match pair, same with
  | [d,e], same =>
    simp only [List.map_cons,List.map_nil,List.cons.injEq,and_true] at same
    obtain ⟨rfl,rfl⟩ := same
    have keys : ((offers (B.reached a)).map Prod.fst).Nodup := by
      simp only [offers,List.map_map,Function.comp_def,List.map_id']
      exact List.Nodup.of_map Resting.ref (distinct.sublist (B.reached_line a).sublist)
    have maker : z.1 = e := by
      refine List.inj_on_of_nodup_map (distinct.sublist (B.reached_line a).sublist) (Ladder.served_offer served).1
        (sub.subset (by simp)) hit
    have first : (d,d.remaining.toNat) ∈ serve a.quantity.toNat (offers (B.reached a)) :=
      serve_in_turn (y := (e,e.remaining.toNat)) (m := z.2) (sound.valid.reached_wants a) keys
        (sub.map fun e : Resting => (e,e.remaining.toNat)) (by rw [← maker]; exact served)
    have closed : d.ref ∈ closedRefs (B.sweepFor a).fills := by
      have filled : Execution.served (d,d.remaining.toNat) ∈ (B.place a).1 := by
        rw [sound.valid.place_serves]
        exact List.mem_map_of_mem first
      exact mem_closedRefs filled (by simp [Execution.served])
    have apart := (sweep_closed (stopsAt a.order) a.quantity (B.opposite a.side)).nodup_iff.mpr distinct
    intro waits
    refine (List.nodup_append.mp apart).2.2 d.ref closed d.ref ?_ rfl
    rw [refsOf_append]
    exact List.mem_append_left _ waits

/-- While an order waits, those behind it in its line do not trade and stay behind it. -/
theorem Sound.turn_step (sound : Sound ob B) (effect : Effect (B.fills c) (grown ob.heap c) ob'.heap)
    (ahead : [x,y].Sublist (refsOf (B.own side))) (waits : x ∈ refsOf ((B.call c).2.own side)) :
    (ob'.heap.order y).filledQty = (ob.heap.order y).filledQty ∧
      (y ∈ refsOf ((B.call c).2.own side) → [x,y].Sublist (refsOf ((B.call c).2.own side))) := by
  have distinct := (List.nodup_append.mp (sound.lines_distinct side)).1
  have old : y < ob.heap.orderCount := by
    obtain ⟨L,level,e,entry,rfl⟩ := mem_refsOf.mp (ahead.subset (a := y) (by simp))
    exact sound.models.rep.orderBound _ (mem_refsOf.mpr ⟨L,Ladder.own_levels level,e,entry,rfl⟩)
  cases c with
  | cancel id' =>
    refine ⟨by simp [effect.filled,Ladder.fills,grown],fun stays => ?_⟩
    exact ahead_of_sublist distinct (B.cancel_line id' side) ahead waits stays
  | process a =>
    by_cases same : side = buy ↔ a.side = buy
    · obtain ⟨after,before⟩ := B.place_near a same
      rw [before] at ahead
      refine ⟨sound.missed old (fun f fill hit => ?_) effect,fun _ => ?_⟩
      · obtain ⟨L,level,entry,_⟩ := sweep_makers _ _ _ fill
        exact (List.nodup_append.mp (sound.lines_distinct a.side)).2.2 y (ahead.subset (by simp)) y
          (mem_refsOf.mpr ⟨L,level,f.maker,entry,hit⟩) rfl
      · rw [Ladder.call,after]
        exact ahead.trans (B.ownAfter_line a)
    · obtain ⟨after,before⟩ := B.place_facing a same
      rw [before] at ahead distinct
      rw [Ladder.call,after] at waits ⊢
      refine ⟨sound.missed old (fun f fill hit => sound.filled_ahead ahead fill hit waits) effect,fun stays => ?_⟩
      exact ahead_of_sublist distinct (sweep_line _ _ _).sublist ahead waits stays

/-- The side a side code trades with. -/
def facing (side : Side) : Side := if side = buy then sell else buy

theorem Ladder.opposite_own (B : Ladder) (side : Side) : B.opposite side = B.own (facing side) := by
  by_cases buying : side = buy
  · simp [Ladder.opposite,Ladder.own,facing,buying,buy,sell]
  · simp [Ladder.opposite,Ladder.own,facing,buying]

/-- Of two orders in one line the second has not moved while the first one waits: it is behind
the first, or it has left without a further trade. -/
structure Turn (side : Side) (x y : OrderRef) (filled : UInt64) (ob : OrderBook) (B : Ladder) : Prop where
  old : x < ob.heap.orderCount ∧ y < ob.heap.orderCount
  turn : x ∈ refsOf (B.own side) → (ob.heap.order y).filledQty = filled ∧
    ([x,y].Sublist (refsOf (B.own side)) ∨ ∀ s, y ∉ refsOf (B.own s))

theorem Turn.step (turn : Turn side x y filled ob B) (sound : Sound ob B)
    (effect : Effect (B.fills c) (grown ob.heap c) ob'.heap) : Turn side x y filled ob' (B.call c).2 := by
  have count : ob.heap.orderCount ≤ ob'.heap.orderCount := by
    rw [effect.orderCount]
    cases c with
    | process a => exact Nat.le_succ _
    | cancel id' => exact Nat.le_refl _
  have stays {r : OrderRef} {s : Side} (old : r < ob.heap.orderCount) (member : r ∈ refsOf ((B.call c).2.own s)) :
      r ∈ refsOf (B.own s) :=
    (sound.valid.call_line c s member).resolve_right fun new => by
      rw [new,← sound.models.orderCount] at old
      exact Nat.lt_irrefl _ old
  obtain ⟨oldX,oldY⟩ := turn.old
  refine ⟨⟨Nat.lt_of_lt_of_le oldX count,Nat.lt_of_lt_of_le oldY count⟩,fun waits => ?_⟩
  obtain ⟨same,ahead | out⟩ := turn.turn (stays oldX waits)
  · obtain ⟨kept,behind⟩ := sound.turn_step effect ahead waits
    refine ⟨kept.trans same,?_⟩
    by_cases still : y ∈ refsOf ((B.call c).2.own side)
    · exact .inl (behind still)
    · -- what has left its own line was never in the other one
      refine .inr fun s member => ?_
      by_cases own : s = buy ↔ side = buy
      · have line : (B.call c).2.own s = (B.call c).2.own side := by simp [Ladder.own,own]
        exact still (line ▸ member)
      · have line : B.own s = B.opposite side := by
          by_cases buying : side = buy
          · have selling : s ≠ buy := fun bought => own (by simp [bought,buying])
            simp [Ladder.own,Ladder.opposite,selling,buying]
          · have bought : s = buy := by
              by_contra selling
              exact own (by simp [selling,buying])
            simp [Ladder.own,Ladder.opposite,bought,buying]
        exact (List.nodup_append.mp (sound.lines_distinct side)).2.2 y (ahead.subset (by simp)) y
          (line ▸ stays oldY member) rfl
  · refine ⟨?_,.inr fun s member => out s (stays oldY member)⟩
    rw [← same]
    cases c with
    | cancel id' => simp [effect.filled,Ladder.fills,grown]
    | process a =>
      refine sound.missed oldY (fun f fill hit => ?_) effect
      obtain ⟨L,level,entry,_⟩ := sweep_makers _ _ _ fill
      rw [B.opposite_own] at level
      exact out (facing a.side) (mem_refsOf.mpr ⟨L,level,f.maker,entry,hit⟩)

theorem Turn.run (turn : Turn side x y filled ob B) (sound : Sound ob B)
    (result : Runs.run Orderbook.call calls ob = some (replies,ob')) :
    ∃ B', Sound ob' B' ∧ Turn side x y filled ob' B' := by
  refine run_preserves (fun _ ob => ∃ B, Sound ob B ∧ Turn side x y filled ob B) ?_ calls [] ⟨B,sound,turn⟩ result
  rintro _ ob c reply ob' ⟨B,sound,turn⟩ step
  obtain ⟨ob1,step',after,effect⟩ := sound.step c
  obtain ⟨_,rfl⟩ := outcome_unique step step'
  exact ⟨_,after,turn.step sound effect⟩

end Turns

theorem Sound.own_line (sound : Sound ob B) (side : Side) : ob.line (ob.own side) = refsOf (B.own side) := by
  rw [sound.own]
  exact sound.line fun L level => Ladder.own_levels level

/-- Nobody is overtaken: as long as an order waits in a line, whatever calls are made, an order
behind it gets nothing and stays behind it. -/
theorem no_overtaking (side : Side) (before : runCalls front = some (replies,ob))
    (result : runCalls (front ++ rest) = some (all,ob'))
    (ahead : [x,y].Sublist (ob.line (ob.own side))) (waits : x ∈ ob'.line (ob'.own side)) :
    (ob'.heap.order y).filledQty = (ob.heap.order y).filledQty ∧
      (y ∈ ob'.line (ob'.own side) → [x,y].Sublist (ob'.line (ob'.own side))) := by
  obtain ⟨B,later,sound,run⟩ := runCalls_resume before result
  rw [sound.own_line] at ahead
  have old {r : OrderRef} (member : r ∈ [x,y]) : r < ob.heap.orderCount := by
    obtain ⟨L,level,e,entry,rfl⟩ := mem_refsOf.mp (ahead.subset member)
    exact sound.models.rep.orderBound _ (mem_refsOf.mpr ⟨L,Ladder.own_levels level,e,entry,rfl⟩)
  have start : Turn side x y (ob.heap.order y).filledQty ob B :=
    ⟨⟨old (by simp),old (by simp)⟩,fun _ => ⟨rfl,.inl ahead⟩⟩
  obtain ⟨B',sound',turn⟩ := start.run sound run
  rw [sound'.own_line] at waits ⊢
  obtain ⟨same,behind | out⟩ := turn.turn waits
  · exact ⟨same,fun _ => behind⟩
  · exact ⟨same,fun stays => absurd stays (out side)⟩

def queuedSells : List Call := [.process ⟨[65],sell,limitOrder,10,5⟩,.process ⟨[66],sell,limitOrder,10,7⟩]

def smallBuy : List Call := [.process ⟨[67],buy,limitOrder,10,3⟩]

theorem secondSell_waits : ∃ replies ob all ob', runCalls queuedSells = some (replies,ob) ∧
    runCalls (queuedSells ++ smallBuy) = some (all,ob') ∧ (ob'.heap.order 1).filledQty = (ob.heap.order 1).filledQty := by
  have start : (runCalls queuedSells).map (fun r => r.2.line (r.2.own sell)) = some [0,1] := by decide
  have finish : (runCalls (queuedSells ++ smallBuy)).map (fun r => r.2.line (r.2.own sell)) = some [0,1] := by decide
  obtain ⟨⟨replies,ob⟩,before,line⟩ := Option.map_eq_some_iff.mp start
  obtain ⟨⟨all,ob'⟩,result,line'⟩ := Option.map_eq_some_iff.mp finish
  exact ⟨replies,ob,all,ob',before,result,
    (no_overtaking (x := 0) sell before result (by rw [line]) (by rw [line']; simp)).1⟩

end TradingPlatform.Orderbook
