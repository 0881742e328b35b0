import TradingPlatform.MatchingRefinement
import Mathlib.Data.List.TakeWhile

/-! The pointer book refines the ladder: `Process`, `Cancel` and `GetDepth` are the
ladder's operations whenever both sides are sorted and the ID map only names orders
that are in some queue. -/
namespace TradingPlatform.Orderbook

open Loop Search

theorem precedes_trans (ab : precedes d a b = true) (bc : precedes d b c = true) :
    precedes d a c = true := by
  cases d <;> simp only [precedes,Bool.false_eq_true,if_true,if_false,decide_eq_true_eq] at * <;> grind

theorem precedes_irrefl (d : Bool) (a : UInt64) : precedes d a a = false := by
  cases d <;> simp [precedes]

theorem precedes_of_not (not : precedes d a b = false) (ne : a ≠ b) : precedes d b a = true := by
  cases d <;>
    simp only [precedes,Bool.false_eq_true,if_true,if_false,decide_eq_true_eq,decide_eq_false_iff_not] at * <;>
    grind

theorem precedes_ne (before : precedes d a b = true) : a ≠ b := by
  intro eq
  rw [eq,precedes_irrefl] at before
  exact Bool.noConfusion before

theorem precedes_asymm (ab : precedes d a b = true) : precedes d b a = false := by
  by_contra ba
  simp only [Bool.not_eq_false] at ba
  exact precedes_ne (precedes_trans ab ba) rfl

theorem not_precedes_trans (ab : precedes d a b = false) (bc : precedes d b c = false) :
    precedes d a c = false := by
  by_cases same : a = b
  · rwa [same]
  · by_contra ac
    simp only [Bool.not_eq_false] at ac
    simp [precedes_trans (precedes_of_not ab same) ac] at bc

/-- The part of a sorted side before a price, and the rest. -/
theorem sorted_split (d : Bool) (levels : List Level) (price : UInt64) (sorted : SortedBy d levels) :
    ∃ front back, levels = front ++ back ∧
      levels.takeWhile (fun L => precedes d L.price price) = front ∧
      levels.dropWhile (fun L => precedes d L.price price) = back ∧
      (∀ L ∈ front, precedes d L.price price = true) ∧
      ∀ L ∈ back, precedes d L.price price = false := by
  refine ⟨_,_,List.takeWhile_append_dropWhile.symm,rfl,rfl,
    fun L member => by simpa using List.mem_takeWhile_imp (p := fun L : Level => precedes d L.price price) member,?_⟩
  induction levels with
  | nil => simp
  | cons M levels ih =>
    obtain ⟨first,rest⟩ := List.pairwise_cons.mp sorted
    intro L member
    cases before : precedes d M.price price with
    | true =>
      rw [List.dropWhile_cons_of_pos (by simpa using before)] at member
      exact ih rest L member
    | false =>
      rw [List.dropWhile_cons_of_neg (by simp [before])] at member
      rcases List.mem_cons.mp member with rfl | later
      · exact before
      · cases behind : precedes d L.price price with
        | false => rfl
        | true => exact (precedes_trans (first L later) behind).symm.trans before

/-- The two ways an entry settles on a sorted side. -/
theorem settle_cases (d : Bool) (fresh : LimitRef) (e : Resting) (levels : List Level)
    (sorted : SortedBy d levels) :
    (∃ front L back, levels = front ++ L :: back ∧ L.price = e.price ∧
      (∀ M ∈ front, precedes d M.price e.price = true) ∧
      (∀ M ∈ back, precedes d e.price M.price = true) ∧
      settle d fresh e levels = front ++ { L with queue := L.queue ++ [e] } :: back) ∨
    (∃ front back, levels = front ++ back ∧
      (∀ M ∈ front, precedes d M.price e.price = true) ∧
      (∀ M ∈ back, precedes d e.price M.price = true) ∧
      settle d fresh e levels = front ++ ⟨fresh,e.price,[e]⟩ :: back) := by
  obtain ⟨front,back,split,takes,drops,before,after⟩ := sorted_split d levels e.price sorted
  cases back with
  | nil => exact .inr ⟨front,[],split,before,by simp,by simp [settle,takes,drops]⟩
  | cons L back =>
    have order : ∀ M ∈ back, precedes d L.price M.price = true := by
      rw [split] at sorted
      exact (List.pairwise_cons.mp (List.pairwise_append.mp sorted).2.1).1
    by_cases same : L.price = e.price
    · refine .inl ⟨front,L,back,split,same,before,fun M member => same ▸ order M member,?_⟩
      simp [settle,takes,drops,same]
    · have behind := precedes_of_not (after L (by simp)) same
      refine .inr ⟨front,L :: back,split,before,fun M member => ?_,?_⟩
      · rcases List.mem_cons.mp member with rfl | later
        · exact behind
        · exact precedes_trans behind (order M later)
      · simp [settle,takes,drops,same]

/-- The index `sort.Search` finds on the heap. -/
theorem searchList_reaches (rep : Represents h (levels ++ others)) (d : Bool) (price : UInt64)
    (split : levels = front ++ back) (before : ∀ L ∈ front, precedes d L.price price = true)
    (after : ∀ L ∈ back, precedes d L.price price = false) :
    searchList (reaches h d price) (levels.map Level.ref) = front.length := by
  have atLevel (L : Level) (member : L ∈ levels) :
      reaches h d price L.ref = !precedes d L.price price := by
    have same := (rep.level L (List.mem_append_left _ member)).price
    cases d <;> simp [reaches,precedes,same,← UInt64.not_lt]
  rw [searchList_map,searchList_congr _ _ _ atLevel,split]
  apply searchList_append
  · intro L member
    simp [before L member]
  · intro L member
    simp [after L member]

theorem any_price (levels : List Level) (price : UInt64) :
    levels.any (fun L => L.price = price) = true ↔ ∃ L ∈ levels, L.price = price := by
  simp

/-- `addLimitOrder` settles the order's entry on its side. -/
theorem addLimitOrder_settles (rep : Represents h (own ++ others)) (d : Bool) (sorted : SortedBy d own)
    (x : OrderRef) (idle : x ∉ refsOf (own ++ others)) (allocated : x < h.orderCount)
    (orders : OrderMap) :
    ∃ h', addLimitOrder h orders x (own.map Level.ref) d =
        some (h',Function.update orders (h.order x).id (some x),
          (settle d h.limitCount (restingOf h x) own).map Level.ref) ∧
      Effect [] h h' ∧ Represents h' (settle d h.limitCount (restingOf h x) own ++ others) ∧
      h'.limitCount =
        if own.any (fun L => L.price = (h.order x).price) then h.limitCount else h.limitCount + 1 := by
  rcases settle_cases d h.limitCount (restingOf h x) own sorted with
    ⟨front,L,back,split,same,before,after,settled⟩ | ⟨front,back,split,before,after,settled⟩
  · have idx := searchList_reaches rep d (h.order x).price split before (by
      intro M member
      rcases List.mem_cons.mp member with rfl | later
      · rw [same]; exact precedes_irrefl d _
      · cases wrong : precedes d M.price (h.order x).price with
        | false => rfl
        | true => exact absurd rfl (precedes_ne (precedes_trans (after M later) wrong)))
    have price := (rep.level L (by simp [split])).price
    have atIdx : (own.map Level.ref)[front.length]? = some L.ref := by simp [split]
    have front' : Represents h (L :: (front ++ back ++ others)) :=
      rep.perm (by simp [split])
    have idle' : x ∉ refsOf (L :: (front ++ back ++ others)) := fun member =>
      idle (by simp only [split,refsOf_append,refsOf_cons,List.mem_append] at member ⊢; tauto)
    obtain ⟨h',added,effect,limitCount,rep'⟩ := addOrder_represents front' x idle' allocated
    refine ⟨h',?_,effect,?_,?_⟩
    · have price' : (h.limit L.ref).price = (h.order x).price := price.trans same
      rw [settled]
      simp only [addLimitOrder,idx,atIdx,Option.filter_some,price',decide_true,if_true,added,
        Option.map_some,effect.id_eq]
      simp [split]
    · rw [settled]
      exact rep'.perm (by simpa using List.perm_middle.symm)
    · have exists_ : own.any (fun L => L.price = (h.order x).price) = true :=
        (any_price _ _).mpr ⟨L,by simp [split],same⟩
      rw [exists_,limitCount]
      rfl
  · have idx := searchList_reaches rep d (h.order x).price split before (by
      intro M member
      cases wrong : precedes d M.price (h.order x).price with
      | false => rfl
      | true => exact absurd rfl (precedes_ne (precedes_trans (after M member) wrong)))
    have absent : ∀ M ∈ own, M.price ≠ (h.order x).price := by
      intro M member
      rw [split] at member
      rcases List.mem_append.mp member with inFront | inBack
      · exact precedes_ne (before M inFront)
      · exact (precedes_ne (after M inBack)).symm
    have missing : (own.map Level.ref)[front.length]?.filter
        (fun l => (h.limit l).price = (h.order x).price) = none := by
      cases back with
      | nil => simp [split]
      | cons M back =>
        have price := (rep.level M (by simp [split])).price
        simp [split,price,absent M (by simp [split])]
    have opened := newLimit_represents rep (h.order x).price
    have idle' : x ∉ refsOf (⟨h.limitCount,(h.order x).price,[]⟩ :: (own ++ others)) := by
      simpa [Level.refs] using idle
    obtain ⟨h',added,effect,limitCount,rep'⟩ := addOrder_represents opened x idle' allocated
    refine ⟨h',?_,?_,?_,?_⟩
    · rw [settled]
      simp only [newLimit] at added
      simp only [addLimitOrder,idx,missing,newLimit,added,Option.map_some]
      rw [effect.id_eq]
      simp [split,newLimit,restingOf]
    · exact ⟨effect.args,effect.filled,effect.ledger,effect.orderCount⟩
    · rw [settled]
      refine rep'.perm ?_
      simp only [split,List.append_assoc]
      exact List.perm_middle.symm
    · have none_ : own.any (fun L => L.price = (h.order x).price) = false := by
        simpa using absent
      rw [none_,limitCount]
      rfl

/-- `removeLimitLevel` removes the one level at the price, if there is one. -/
theorem removeLimitLevel_filter (rep : Represents h (own ++ others)) (d : Bool) (sorted : SortedBy d own)
    (price : UInt64) :
    removeLimitLevel h (own.map Level.ref) price d =
      (own.filter fun L => L.price ≠ price).map Level.ref := by
  obtain ⟨front,back,split,_,_,before,after⟩ := sorted_split d own price sorted
  have idx := searchList_reaches rep d price split before after
  have frontKept : front.filter (fun L => L.price ≠ price) = front :=
    List.filter_eq_self.mpr fun L member => by simpa using precedes_ne (before L member)
  cases back with
  | nil =>
    have absent : (own.map Level.ref)[front.length]? = none := by simp [split]
    simp only [removeLimitLevel,idx,absent,Option.filter_none]
    rw [split,List.append_nil,frontKept]
  | cons L back =>
    have order : ∀ M ∈ back, precedes d L.price M.price = true := by
      rw [split] at sorted
      exact (List.pairwise_cons.mp (List.pairwise_append.mp sorted).2.1).1
    have atIdx : (own.map Level.ref)[front.length]? = some L.ref := by simp [split]
    have cell := (rep.level L (by simp [split])).price
    by_cases same : L.price = price
    · have backKept : back.filter (fun L => L.price ≠ price) = back :=
        List.filter_eq_self.mpr fun M member => by
          simpa using (same ▸ precedes_ne (order M member)).symm
      simp only [removeLimitLevel,idx,atIdx,Option.filter_some,cell,same,decide_true,if_true]
      rw [split,List.filter_append,frontKept,List.filter_cons_of_neg (by simp [same]),backKept]
      simp [List.drop_append]
    · have backKept : (L :: back).filter (fun L => L.price ≠ price) = L :: back := by
        refine List.filter_eq_self.mpr fun M member => ?_
        rcases List.mem_cons.mp member with rfl | later
        · simpa using same
        · have behind := precedes_trans (precedes_of_not (after L (by simp)) same) (order M later)
          simpa using (precedes_ne behind).symm
      simp only [removeLimitLevel,idx,atIdx,Option.filter_some,cell,same,decide_false]
      rw [split,List.filter_append,frontKept,backKept]
      simp

theorem queue_length_le (rep : Represents h levels) (L : Level) (member : L ∈ levels) :
    L.queue.length ≤ h.orderCount := by
  have distinct : L.refs.Nodup :=
    (List.nodup_flatMap.mp rep.orderRefs).1 L member
  have within : L.refs ⊆ List.range h.orderCount := fun r inside =>
    List.mem_range.mpr (rep.orderBound r (List.mem_flatMap.mpr ⟨L,member,inside⟩))
  simpa [Level.refs] using (distinct.subperm within).length_le

/-- `matchOrder` with its budget, for a taker outside every queue. -/
theorem matchOrder_sweeps (rep : Represents h (makers ++ others)) (taker : OrderRef)
    (idle : taker ∉ refsOf (makers ++ others)) (orders : OrderMap) :
    ∃ m, matchOrder (matchFuel h (makers.map Level.ref)) h orders taker (makers.map Level.ref) = some m ∧
      Progress taker (sweep (stopsAt (h.order taker)) (h.order taker).remainingQty makers).fills
        ⟨h,orders,makers.map Level.ref,[]⟩ m ∧
      Represents m.heap ((sweep (stopsAt (h.order taker)) (h.order taker).remainingQty makers).makers ++
        ((sweep (stopsAt (h.order taker)) (h.order taker).remainingQty makers).dropped ++ others)) ∧
      m.makerLimits =
        (sweep (stopsAt (h.order taker)) (h.order taker).remainingQty makers).makers.map Level.ref ∧
      (m.heap.order taker).remainingQty =
        (sweep (stopsAt (h.order taker)) (h.order taker).remainingQty makers).left := by
  refine iterate_matchLevel taker makers others ⟨h,orders,makers.map Level.ref,[]⟩ _ _ _ rep idle rfl rfl
    ?_ ?_
  · intro L member
    have bound := queue_length_le rep L (List.mem_append_left _ member)
    simp only [matchFuel]
    omega
  · simp only [matchFuel,List.length_map]
    omega

structure Models (ob : OrderBook) (B : Ladder) : Prop where
  rep : Represents ob.heap B.levels
  bids : ob.bids = B.bids.map Level.ref
  asks : ob.asks = B.asks.map Level.ref
  orders : ob.orders = B.orders
  orderCount : ob.heap.orderCount = B.orderCount
  limitCount : ob.heap.limitCount = B.limitCount

def Ladder.Sorted (B : Ladder) : Prop := SortedBy true B.bids ∧ SortedBy false B.asks

theorem new_models : Models newOrderBook Ladder.empty :=
  ⟨represents_empty,rfl,rfl,rfl,rfl,rfl⟩

theorem order_remaining (a : OrderArgs) : a.order.remainingQty = a.quantity := by
  simp [Order.remainingQty,OrderArgs.order]

theorem rests_iff (B : Ladder) (a : OrderArgs) :
    B.rests a = true ↔ 0 < (B.sweepFor a).left ∧ a.type = limitOrder := by
  have positive : (B.sweepFor a).left ≠ 0 ↔ 0 < (B.sweepFor a).left := by grind
  simp [Ladder.rests,positive]

/-- Matching and settling in terms of the ladder, for either side of the order. The
heap `h` already holds the fresh order. -/
theorem place_side (B : Ladder) (a : OrderArgs)
    (rep : Represents h (B.opposite a.side ++ (B.own a.side ++ B.detached)))
    (sorted : SortedBy (decide (a.side = buy)) (B.own a.side))
    (idle : B.orderCount ∉ refsOf (B.opposite a.side ++ (B.own a.side ++ B.detached)))
    (fresh : h.order B.orderCount = a.order) (allocated : B.orderCount < h.orderCount)
    (limitCount : h.limitCount = B.limitCount) :
    ∃ m h', matchOrder (matchFuel h ((B.opposite a.side).map Level.ref)) h B.orders B.orderCount
        ((B.opposite a.side).map Level.ref) = some m ∧
      m.trades = (B.sweepFor a).fills.map (Execution.trade a.id) ∧
      m.makerLimits = (B.sweepFor a).makers.map Level.ref ∧
      (0 < (m.heap.order B.orderCount).remainingQty ∧ (m.heap.order B.orderCount).type = limitOrder ↔
        B.rests a = true) ∧
      (B.rests a = true → addLimitOrder m.heap m.orders B.orderCount ((B.own a.side).map Level.ref)
        (decide (a.side = buy)) = some (h',B.ordersAfter a,(B.ownAfter a).map Level.ref)) ∧
      (B.rests a = false → m.heap = h' ∧ m.orders = B.ordersAfter a ∧ B.ownAfter a = B.own a.side) ∧
      Effect ((B.sweepFor a).fills.map (Execution.fill B.orderCount)) h h' ∧
      Represents h' (B.ownAfter a ++ ((B.sweepFor a).makers ++ ((B.sweepFor a).dropped ++ B.detached))) ∧
      h'.limitCount = B.limitsAfter a := by
  obtain ⟨m,matched,progress,rep',limits,left⟩ := matchOrder_sweeps rep B.orderCount idle B.orders
  have sweeps : sweep (stopsAt (h.order B.orderCount)) (h.order B.orderCount).remainingQty
      (B.opposite a.side) = B.sweepFor a := by rw [fresh,order_remaining]; rfl
  rw [sweeps] at progress rep' limits left
  have args := progress.effect.args B.orderCount
  rw [fresh] at args
  have id : (m.heap.order B.orderCount).id = a.id := congrArg OrderArgs.id args
  have side : (m.heap.order B.orderCount).side = a.side := congrArg OrderArgs.side args
  have type : (m.heap.order B.orderCount).type = a.type := congrArg OrderArgs.type args
  have price : (m.heap.order B.orderCount).price = a.price := congrArg OrderArgs.price args
  have count : m.heap.limitCount = B.limitCount := progress.limitCount.trans limitCount
  have released : m.orders = release B.orders (B.sweepFor a).fills := progress.orders
  have trades : m.trades = (B.sweepFor a).fills.map (Execution.trade a.id) := by
    simpa [fresh,OrderArgs.order] using progress.trades
  have front : Represents m.heap
      (B.own a.side ++ ((B.sweepFor a).makers ++ ((B.sweepFor a).dropped ++ B.detached))) := by
    refine rep'.perm ?_
    have swap : ((B.sweepFor a).dropped ++ (B.own a.side ++ B.detached)).Perm
        (B.own a.side ++ ((B.sweepFor a).dropped ++ B.detached)) := List.perm_append_comm_assoc _ _ _
    exact (swap.append_left _).trans (List.perm_append_comm_assoc _ _ _)
  have guard : 0 < (m.heap.order B.orderCount).remainingQty ∧
      (m.heap.order B.orderCount).type = limitOrder ↔ B.rests a = true := by
    rw [left,type,rests_iff]
  cases rests : B.rests a with
  | false =>
    have own : B.ownAfter a = B.own a.side := by simp [Ladder.ownAfter,rests]
    refine ⟨m,m.heap,matched,trades,limits,by simpa [rests] using guard,by simp,?_,progress.effect,?_,?_⟩
    · exact fun _ => ⟨rfl,by simp [Ladder.ordersAfter,rests,released],own⟩
    · rw [own]; exact front
    · simp [Ladder.limitsAfter,rests,count]
  | true =>
    have idle' : B.orderCount ∉
        refsOf (B.own a.side ++ ((B.sweepFor a).makers ++ ((B.sweepFor a).dropped ++ B.detached))) := by
      intro member
      apply idle
      have swept := sweep_refs (stopsAt a.order) a.quantity (B.opposite a.side) B.orderCount
      change B.orderCount ∈ refsOf ((B.sweepFor a).makers ++ (B.sweepFor a).dropped) → _ at swept
      simp only [refsOf_append,List.mem_append] at member swept ⊢
      tauto
    obtain ⟨h',added,effect,rep'',limitCount'⟩ := addLimitOrder_settles front _ sorted B.orderCount idle'
      (by rw [progress.effect.orderCount]; exact allocated) m.orders
    have entry : restingOf m.heap B.orderCount = B.entry a := by
      simp [restingOf,Ladder.entry,id,side,price,left]
    have own : settle (decide (a.side = buy)) m.heap.limitCount (B.entry a) (B.own a.side) =
        B.ownAfter a := by simp [Ladder.ownAfter,rests,count]
    rw [entry,own,id] at added
    rw [entry,own] at rep''
    rw [price,count] at limitCount'
    refine ⟨m,h',matched,trades,limits,by simpa [rests] using guard,?_,by simp,?_,rep'',?_⟩
    · intro _
      rw [added]
      simp [Ladder.ordersAfter,rests,released]
    · simpa using progress.effect.trans effect
    · rw [limitCount']
      simp only [Ladder.limitsAfter,rests,Bool.true_and]
      cases (B.own a.side).any fun L => decide (L.price = a.price) <;> rfl

/-- `Process` on a fresh order is the ladder's `place`. -/
theorem place_models (models : Models ob B) (sorted : B.Sorted) (a : OrderArgs) :
    ∃ ob', place ob a = some ((B.place a).1.map (Execution.trade a.id),ob') ∧
      Models ob' (B.place a).2 ∧
      Effect ((B.place a).1.map (Execution.fill B.orderCount)) (newOrder ob.heap a).2 ob'.heap := by
  have start : place ob a = process { ob with heap := (newOrder ob.heap a).2 } B.orderCount := by
    rw [← models.orderCount]; rfl
  have rep := newOrder_represents models.rep a
  have fresh : (newOrder ob.heap a).2.order B.orderCount = a.order := by
    simp [newOrder,models.orderCount]
  have idle : B.orderCount ∉ refsOf B.levels := fun member =>
    Nat.lt_irrefl _ (models.orderCount ▸ models.rep.orderBound _ member)
  have orderCount : (newOrder ob.heap a).2.orderCount = B.orderCount + 1 := by
    simp [newOrder,models.orderCount]
  have limitCount : (newOrder ob.heap a).2.limitCount = B.limitCount := models.limitCount
  generalize (newOrder ob.heap a).2 = h at *
  by_cases zero : a.quantity = 0
  · have nothing : B.sweepFor a = ⟨[],B.opposite a.side,[],0⟩ := by
      simp only [Ladder.sweepFor,zero,sweep_zero]
    have absent : B.rests a = false := by simp [Ladder.rests,nothing]
    refine ⟨{ ob with heap := h },?_,⟨?_,?_,?_,?_,orderCount,?_⟩,?_⟩
    · rw [start]
      simp [process,fresh,OrderArgs.order,zero,Ladder.place,nothing]
    · refine rep.perm (List.Perm.of_eq ?_)
      by_cases side : a.side = buy <;>
        simp [Ladder.levels,Ladder.place,Ladder.ownAfter,Ladder.own,Ladder.opposite,nothing,absent,side]
    · by_cases side : a.side = buy <;>
        simp [Ladder.place,Ladder.ownAfter,Ladder.own,Ladder.opposite,nothing,absent,side,models.bids]
    · by_cases side : a.side = buy <;>
        simp [Ladder.place,Ladder.ownAfter,Ladder.own,Ladder.opposite,nothing,absent,side,models.asks]
    · simp [Ladder.place,Ladder.ordersAfter,nothing,absent,release,models.orders]
    · simp [Ladder.place,Ladder.limitsAfter,absent,limitCount]
    · simpa [Ladder.place,nothing] using Effect.refl h
  · have front : Represents h (B.opposite a.side ++ (B.own a.side ++ B.detached)) := by
      refine rep.perm ?_
      by_cases side : a.side = buy
      · simpa [Ladder.levels,Ladder.own,Ladder.opposite,side] using List.perm_append_comm_assoc _ _ _
      · simp [Ladder.levels,Ladder.own,Ladder.opposite,side]
    have idle' : B.orderCount ∉ refsOf (B.opposite a.side ++ (B.own a.side ++ B.detached)) := by
      intro member
      apply idle
      by_cases side : a.side = buy <;>
        simp only [Ladder.levels,Ladder.own,Ladder.opposite,side,if_true,if_false,refsOf_append,
          List.mem_append] at member ⊢ <;> tauto
    have sortedOwn : SortedBy (decide (a.side = buy)) (B.own a.side) := by
      by_cases side : a.side = buy
      · simpa [Ladder.own,side] using sorted.1
      · simpa [Ladder.own,side] using sorted.2
    obtain ⟨m,h',matched,trades,limits,guard,rest,stay,effect,rep',count'⟩ :=
      place_side B a front sortedOwn idle' fresh (by omega) limitCount
    refine ⟨⟨h',if a.side = buy then (B.ownAfter a).map Level.ref else m.makerLimits,
      if a.side = buy then m.makerLimits else (B.ownAfter a).map Level.ref,B.ordersAfter a⟩,
      ?_,⟨?_,?_,?_,rfl,effect.orderCount.trans orderCount,count'⟩,effect⟩
    · rw [start]
      by_cases side : a.side = buy
      · have opposite : (B.opposite a.side).map Level.ref = ob.asks := by
          simp [Ladder.opposite,side,models.asks]
        have own : (B.own a.side).map Level.ref = ob.bids := by simp [Ladder.own,side,models.bids]
        rw [opposite,← models.orders] at matched
        rw [own] at rest
        simp only [process,fresh,OrderArgs.order,zero,side,if_true,if_false,matched,Option.bind_eq_bind,
          Option.bind_some,guard]
        cases rests : B.rests a with
        | true =>
          have added := rest rests
          simp only [side,decide_true] at added
          simp [added,Ladder.place,trades]
        | false =>
          obtain ⟨heap,orders,unchanged⟩ := stay rests
          rw [unchanged,own]
          simp [Ladder.place,trades,heap,orders]
      · have opposite : (B.opposite a.side).map Level.ref = ob.bids := by
          simp [Ladder.opposite,side,models.bids]
        have own : (B.own a.side).map Level.ref = ob.asks := by simp [Ladder.own,side,models.asks]
        rw [opposite,← models.orders] at matched
        rw [own] at rest
        simp only [process,fresh,OrderArgs.order,zero,side,if_false,matched,Option.bind_eq_bind,
          Option.bind_some,guard]
        cases rests : B.rests a with
        | true =>
          have added := rest rests
          simp only [side,decide_false] at added
          simp [added,Ladder.place,trades]
        | false =>
          obtain ⟨heap,orders,unchanged⟩ := stay rests
          rw [unchanged,own]
          simp [Ladder.place,trades,heap,orders]
    · by_cases side : a.side = buy
      · simpa [Ladder.levels,Ladder.place,side] using rep'
      · refine rep'.perm ?_
        simpa [Ladder.levels,Ladder.place,side] using List.perm_append_comm_assoc _ _ _
    · by_cases side : a.side = buy <;> simp [Ladder.place,side,limits]
    · by_cases side : a.side = buy <;> simp [Ladder.place,side,limits]

/-- Every ID in the map names an order that is in some queue, attached or not. -/
def Ladder.Live (B : Ladder) : Prop :=
  ∀ id r, B.orders id = some r → ∃ L ∈ B.levels, ∃ e ∈ L.queue, e.ref = r ∧ e.id = id

theorem locate_mem (found : locate r levels = some (L,e)) : L ∈ levels ∧ e ∈ L.queue ∧ e.ref = r := by
  induction levels with
  | nil => simp [locate] at found
  | cons M levels ih =>
    simp only [locate] at found
    cases here : M.queue.find? (fun e => e.ref = r) with
    | none =>
      rw [here] at found
      obtain ⟨member,rest⟩ := ih found
      exact ⟨List.mem_cons_of_mem _ member,rest⟩
    | some e' =>
      rw [here] at found
      obtain ⟨rfl,rfl⟩ := Prod.mk.inj (Option.some.inj found)
      exact ⟨List.mem_cons_self,List.mem_of_find?_eq_some here,by simpa using List.find?_some here⟩

theorem locate_exists (member : r ∈ refsOf levels) : ∃ L e, locate r levels = some (L,e) := by
  induction levels with
  | nil => simp [refsOf] at member
  | cons M levels ih =>
    simp only [locate]
    cases here : M.queue.find? (fun e => e.ref = r) with
    | some e => exact ⟨M,e,rfl⟩
    | none =>
      apply ih
      rw [refsOf_cons,List.mem_append] at member
      rcases member with inside | later
      · obtain ⟨e,inQueue,same⟩ := List.mem_map.mp inside
        exact absurd same (by simpa using List.find?_eq_none.mp here e inQueue)
      · exact later

theorem strip_of_not_mem (L : Level) (absent : r ∉ L.refs) : L.strip r = L := by
  have kept : L.queue.filter (fun e => e.ref ≠ r) = L.queue :=
    List.filter_eq_self.mpr fun e member => by
      simpa using fun same : e.ref = r => absent (same ▸ List.mem_map_of_mem member)
  simp only [Level.strip,kept]

theorem strip_split (L : Level) (split : L.queue = front ++ e :: back) (distinct : L.refs.Nodup) :
    L.strip e.ref = { L with queue := front ++ back } := by
  simp only [Level.refs,split,List.map_append,List.map_cons,List.nodup_append,List.nodup_cons] at distinct
  have frontKept : front.filter (fun d => d.ref ≠ e.ref) = front :=
    List.filter_eq_self.mpr fun d member => by
      simpa using distinct.2.2 d.ref (List.mem_map_of_mem member) e.ref (by simp)
  have backKept : back.filter (fun d => d.ref ≠ e.ref) = back :=
    List.filter_eq_self.mpr fun d member => by
      simpa using fun same : d.ref = e.ref => distinct.2.1.1 (same ▸ List.mem_map_of_mem member)
  simp only [Level.strip,split,List.filter_append,frontKept]
  rw [List.filter_cons_of_neg (by simp),backKept]

@[simp] theorem strip_ref (r : OrderRef) (L : Level) : (L.strip r).ref = L.ref := rfl

@[simp] theorem strip_price (r : OrderRef) (L : Level) : (L.strip r).price = L.price := rfl

theorem strip_levels (B : Ladder) (r : OrderRef) (id : GoString) :
    (B.strip r id).levels = B.levels.map (Level.strip r) := by
  simp [Ladder.levels,Ladder.strip]

theorem sorted_strip (B : Ladder) (sorted : B.Sorted) (r : OrderRef) (id : GoString) :
    (B.strip r id).Sorted := by
  simpa [Ladder.Sorted,SortedBy,Ladder.strip,List.pairwise_map] using sorted

/-- Unlinking on the heap strips the order from every level it is listed in. -/
theorem removeOrder_strips (rep : Represents h levels) (member : L ∈ levels) (entry : e ∈ L.queue) :
    Represents (removeOrder h L.ref e.ref) (levels.map (Level.strip e.ref)) ∧
    Effect [] h (removeOrder h L.ref e.ref) := by
  have order := List.perm_cons_erase member
  obtain ⟨front,back,split⟩ := List.append_of_mem entry
  have first := rep.perm order
  have distinct : L.refs.Nodup := (List.nodup_flatMap.mp rep.orderRefs).1 L member
  refine ⟨(removeOrder_represents first split).perm ?_,removeOrder_effect first split⟩
  have others : (levels.erase L).map (Level.strip e.ref) = levels.erase L := by
    refine (List.map_congr_left fun M inside => ?_).trans (List.map_id _)
    apply strip_of_not_mem
    intro inM
    have apart := (other_level_apart first inside).2 e.ref inM
    exact apart (List.mem_map_of_mem entry)
  have strips := order.map (Level.strip e.ref)
  rw [List.map_cons,others,strip_split L split distinct] at strips
  exact strips.symm

theorem drop_levels (B : Ladder) (side : Side) (price : UInt64) :
    B.levels.Perm (B.dropLevel side price).levels := by
  have parts (xs : List Level) : xs.Perm
      (xs.filter (fun L => L.price ≠ price) ++ xs.filter fun L => L.price = price) := by
    have split := List.filter_append_perm (fun L : Level => decide (L.price ≠ price)) xs
    refine split.symm.trans (List.Perm.of_eq ?_)
    simp
  by_cases buying : side = buy
  · simp only [Ladder.levels,Ladder.dropLevel,buying,if_true]
    refine ((parts B.bids).append_right _).trans ?_
    rw [List.append_assoc]
    exact (List.perm_append_comm_assoc _ _ _).append_left _
  · simp only [Ladder.levels,Ladder.dropLevel,buying,if_false]
    refine List.Perm.append_left _ (((parts B.asks).append_right _).trans ?_)
    rw [List.append_assoc]

/-- `Cancel` is the ladder's `cancel`; it fills nothing. -/
theorem cancel_models (models : Models ob B) (sorted : B.Sorted) (live : B.Live) (id : GoString) :
    ∃ ob', cancel ob id = ((B.cancel id).1,ob') ∧ Models ob' (B.cancel id).2 ∧
      Effect [] ob.heap ob'.heap := by
  cases known : B.orders id with
  | none =>
    refine ⟨ob,?_,?_,Effect.refl _⟩
    · simp [cancel,models.orders,known,Ladder.cancel]
    · simpa [Ladder.cancel,known] using models
  | some r =>
    obtain ⟨M,inside,d,queued,same,_⟩ := live id r known
    obtain ⟨L,e,found⟩ := locate_exists (mem_refsOf.mpr ⟨M,inside,d,queued,same⟩)
    obtain ⟨member,entry,rfl⟩ := locate_mem found
    have cell := (models.rep.level L member).entries e entry
    obtain ⟨rep,effect⟩ := removeOrder_strips models.rep member entry
    have level := rep.level _ (List.mem_map_of_mem member)
    have side : ((removeOrder ob.heap L.ref e.ref).order e.ref).side = e.side :=
      (congrArg OrderArgs.side (effect.args e.ref)).trans cell.side
    have name : ((removeOrder ob.heap L.ref e.ref).order e.ref).id = e.id :=
      (effect.id_eq e.ref).trans cell.id
    have volume : ((removeOrder ob.heap L.ref e.ref).limit L.ref).totalVolume = (L.strip e.ref).volume :=
      level.volume
    have price : ((removeOrder ob.heap L.ref e.ref).limit L.ref).price = L.price := level.price
    have stripped : Models ⟨removeOrder ob.heap L.ref e.ref,ob.bids,ob.asks,
        Function.update ob.orders e.id none⟩ (B.strip e.ref e.id) := by
      obtain ⟨orderCount,limitCount,_⟩ := removeOrder_counts ob.heap L.ref e.ref
      refine ⟨?_,?_,?_,?_,orderCount.trans models.orderCount,limitCount.trans models.limitCount⟩
      · rw [strip_levels]; exact rep
      · simp [models.bids,Ladder.strip,Function.comp_def]
      · simp [models.asks,Ladder.strip,Function.comp_def]
      · simp [models.orders,Ladder.strip]
    have sorted' := sorted_strip B sorted e.ref e.id
    by_cases drained : (L.strip e.ref).volume = 0
    · have moved := stripped.rep.perm (drop_levels _ e.side L.price)
      by_cases buying : e.side = buy
      · refine ⟨⟨removeOrder ob.heap L.ref e.ref,
          ((B.strip e.ref e.id).bids.filter fun M => M.price ≠ L.price).map Level.ref,ob.asks,
          Function.update ob.orders e.id none⟩,?_,?_,effect⟩
        · have dropped := removeLimitLevel_filter stripped.rep true sorted'.1 L.price
          simp only [cancel,models.orders,known,cell.limit,volume,drained,side,buying,price,name,if_true]
          rw [← stripped.bids] at dropped
          simp only at dropped
          simp [dropped,Ladder.cancel,known,found,drained]
        · have sides := stripped.asks
          simp only [Ladder.cancel,known,Option.bind_some,found,drained,if_true]
          refine ⟨moved,?_,?_,?_,?_,?_⟩
          all_goals simp only [Ladder.dropLevel,buying,if_true]
          exacts [sides,stripped.orders,stripped.orderCount,stripped.limitCount]
      · refine ⟨⟨removeOrder ob.heap L.ref e.ref,ob.bids,
          ((B.strip e.ref e.id).asks.filter fun M => M.price ≠ L.price).map Level.ref,
          Function.update ob.orders e.id none⟩,?_,?_,effect⟩
        · have asksFirst := stripped.rep.perm (List.perm_append_comm_assoc _ _ _)
          have dropped := removeLimitLevel_filter asksFirst false sorted'.2 L.price
          simp only [cancel,models.orders,known,cell.limit,volume,drained,side,buying,price,name,
            if_true,if_false]
          rw [← stripped.asks] at dropped
          simp only at dropped
          simp [dropped,Ladder.cancel,known,found,drained]
        · have sides := stripped.bids
          simp only [Ladder.cancel,known,Option.bind_some,found,drained,if_true]
          refine ⟨moved,?_,?_,?_,?_,?_⟩
          all_goals simp only [Ladder.dropLevel,buying,if_false]
          exacts [sides,stripped.orders,stripped.orderCount,stripped.limitCount]
    · refine ⟨⟨removeOrder ob.heap L.ref e.ref,ob.bids,ob.asks,Function.update ob.orders e.id none⟩,
        ?_,?_,effect⟩
      · simp only [cancel,models.orders,known,cell.limit,volume,drained,name,if_false]
        simp [Ladder.cancel,known,found,drained]
      · simp only [Ladder.cancel,known,Option.bind_some,found,drained,if_false]
        exact stripped

theorem getDepth_models (models : Models ob B) (depth : Int) (nonneg : 0 ≤ depth) :
    getDepth ob depth = some (B.depth depth.toNat) := by
  have levels (side : List Level) (within : ∀ L ∈ side, L ∈ B.levels) :
      depthOf ob.heap (side.map Level.ref) depth.toNat =
        (side.take depth.toNat).map fun L => ⟨L.price,L.volume⟩ := by
    simp only [depthOf,← List.map_take,List.map_map]
    refine List.map_congr_left fun L member => ?_
    have rep := models.rep.level L (within L (List.mem_of_mem_take member))
    simp [rep.price,rep.volume]
  have nonneg' : ¬depth < 0 := by omega
  simp only [getDepth,nonneg',if_false,models.bids,models.asks,Ladder.depth]
  rw [levels B.bids (by simp [Ladder.levels]; tauto),levels B.asks (by simp [Ladder.levels]; tauto)]

end TradingPlatform.Orderbook
