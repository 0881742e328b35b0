import TradingPlatform.Loop
import TradingPlatform.OrderHeap
import TradingPlatform.Search

/-! The matching engine of `pkg/orderbook/orderbook.go`. Operations that loop or
dereference a pointer return an `Option`: `none` is a panic or a loop that does not
end within its budget. The slices of levels are lists of references; the two sides
never share a backing array. -/
namespace TradingPlatform.Orderbook

open Loop Search

structure Trade where
  makerOrderID : GoString
  takerOrderID : GoString
  price : UInt64
  quantity : UInt64
  deriving DecidableEq, Repr

structure PriceLevel where
  price : UInt64
  volume : UInt64
  deriving DecidableEq, Repr

abbrev OrderMap := GoString → Option OrderRef

structure OrderBook where
  heap : Heap
  bids : List LimitRef
  asks : List LimitRef
  orders : OrderMap

def newOrderBook : OrderBook := ⟨Heap.empty,[],[],fun _ => none⟩

/-- The package's own `min`. -/
def minQty (a b : UInt64) : UInt64 := if a < b then a else b

/-- The variables `matchOrder` works on: the heap, the ID map, the slice it was
given by reference and the trades so far. -/
structure Matching where
  heap : Heap
  orders : OrderMap
  makerLimits : List LimitRef
  trades : List Trade

/-- The writes under "Fill matching quantities", with the ledger entry they amount to. -/
def fillQuantities (h : Heap) (best : LimitRef) (taker maker : OrderRef) (matchQty : UInt64) : Heap :=
  let h := h.modifyOrder taker fun o => { o with filledQty := o.filledQty + matchQty }
  let h := h.modifyOrder maker fun o => { o with filledQty := o.filledQty + matchQty }
  let h := h.modifyLimit best fun l => { l with totalVolume := l.totalVolume - matchQty }
  h.record ⟨maker,taker,(h.limit best).price,matchQty⟩

/-- One round of the inner loop: the head of the level trades with the taker. -/
def fillHead (best : LimitRef) (taker : OrderRef) (s : Matching) : Option (Control Matching) :=
  match (s.heap.limit best).head with
  | none => some (.done s)
  | some maker =>
    if 0 < (s.heap.order taker).remainingQty then
      let matchQty := minQty (s.heap.order taker).remainingQty (s.heap.order maker).remainingQty
      let heap := fillQuantities s.heap best taker maker matchQty
      let trades := s.trades ++
        [⟨(heap.order maker).id,(heap.order taker).id,(heap.limit best).price,matchQty⟩]
      if (heap.order maker).remainingQty = 0 then
        some (.next { s with
          heap := removeOrder heap best maker
          orders := Function.update s.orders (heap.order maker).id none
          trades := trades })
      else some (.next { s with heap := heap, trades := trades })
    else some (.done s)

/-- The two tests that end the sweep of a limit order at the best level. -/
def stopsAt (taker : Order) (best : UInt64) : Bool :=
  decide (taker.type = limitOrder) &&
    ((decide (taker.side = buy) && decide (taker.price < best)) ||
      (decide (taker.side = sell) && decide (best < taker.price)))

/-- One round of the outer loop: the best level is swept and dropped once its
recorded volume is zero. -/
def matchLevel (fuel : Nat) (taker : OrderRef) (s : Matching) : Option (Control Matching) :=
  match s.makerLimits with
  | [] => some (.done s)
  | best :: _ =>
    if 0 < (s.heap.order taker).remainingQty then
      if stopsAt (s.heap.order taker) (s.heap.limit best).price then some (.done s)
      else
        (iterate (fillHead best taker) fuel s).map fun s =>
          if (s.heap.limit best).totalVolume = 0 then
            .next { s with makerLimits := s.makerLimits.tail }
          else .next s
    else some (.done s)

def matchOrder (fuel : Nat) (heap : Heap) (orders : OrderMap) (taker : OrderRef)
    (makerLimits : List LimitRef) : Option Matching :=
  iterate (matchLevel fuel taker) fuel ⟨heap,orders,makerLimits,[]⟩

/-- Rounds that suffice on a well-formed book: no queue is longer than the number of
orders ever created, and every round but the last drops a level. -/
def matchFuel (heap : Heap) (makerLimits : List LimitRef) : Nat :=
  heap.orderCount + makerLimits.length + 1

/-- The predicate both binary searches pass to `sort.Search`. -/
def reaches (heap : Heap) (descending : Bool) (price : UInt64) (l : LimitRef) : Bool :=
  if descending then decide ((heap.limit l).price ≤ price)
  else decide (price ≤ (heap.limit l).price)

def addLimitOrder (heap : Heap) (orders : OrderMap) (order : OrderRef) (limits : List LimitRef)
    (descending : Bool) : Option (Heap × OrderMap × List LimitRef) :=
  let price := (heap.order order).price
  let idx := searchList (reaches heap descending price) limits
  let (limit,heap,limits) := match limits[idx]?.filter fun l => (heap.limit l).price = price with
    | some limit => (limit,heap,limits)
    | none =>
      let (limit,heap) := newLimit heap price
      (limit,heap,limits.take idx ++ limit :: limits.drop idx)
  (addOrder heap limit order).map fun heap =>
    (heap,Function.update orders (heap.order order).id (some order),limits)

def removeLimitLevel (heap : Heap) (limits : List LimitRef) (price : UInt64)
    (descending : Bool) : List LimitRef :=
  let idx := searchList (reaches heap descending price) limits
  match limits[idx]?.filter fun l => (heap.limit l).price = price with
  | some _ => limits.take idx ++ limits.drop (idx + 1)
  | none => limits

/-- `OrderBook.Process`. -/
def process (ob : OrderBook) (order : OrderRef) : Option (List Trade × OrderBook) :=
  if (ob.heap.order order).quantity = 0 then some ([],ob)
  else if (ob.heap.order order).side = buy then do
    let m ← matchOrder (matchFuel ob.heap ob.asks) ob.heap ob.orders order ob.asks
    let o := m.heap.order order
    if 0 < o.remainingQty ∧ o.type = limitOrder then
      let (heap,orders,bids) ← addLimitOrder m.heap m.orders order ob.bids true
      some (m.trades,⟨heap,bids,m.makerLimits,orders⟩)
    else some (m.trades,⟨m.heap,ob.bids,m.makerLimits,m.orders⟩)
  else do
    let m ← matchOrder (matchFuel ob.heap ob.bids) ob.heap ob.orders order ob.bids
    let o := m.heap.order order
    if 0 < o.remainingQty ∧ o.type = limitOrder then
      let (heap,orders,asks) ← addLimitOrder m.heap m.orders order ob.asks false
      some (m.trades,⟨heap,m.makerLimits,asks,orders⟩)
    else some (m.trades,⟨m.heap,m.makerLimits,ob.asks,m.orders⟩)

/-- `OrderBook.Cancel`. -/
def cancel (ob : OrderBook) (orderID : GoString) : Bool × OrderBook :=
  match ob.orders orderID with
  | none => (false,ob)
  | some order =>
    match (ob.heap.order order).limit with
    | none => (false,ob)
    | some limit =>
      let heap := removeOrder ob.heap limit order
      let orders := Function.update ob.orders (heap.order order).id none
      if (heap.limit limit).totalVolume = 0 then
        if (heap.order order).side = buy then
          (true,⟨heap,removeLimitLevel heap ob.bids (heap.limit limit).price true,ob.asks,orders⟩)
        else
          (true,⟨heap,ob.bids,removeLimitLevel heap ob.asks (heap.limit limit).price false,orders⟩)
      else (true,⟨heap,ob.bids,ob.asks,orders⟩)

def depthOf (heap : Heap) (limits : List LimitRef) (depth : Nat) : List PriceLevel :=
  (limits.take depth).map fun l => ⟨(heap.limit l).price,(heap.limit l).totalVolume⟩

/-- `OrderBook.GetDepth`. A negative depth makes the slice allocation panic; so does one for which
there is not enough memory, which is left out here. -/
def getDepth (ob : OrderBook) (depth : Int) : Option (List PriceLevel × List PriceLevel) :=
  if depth < 0 then none
  else some (depthOf ob.heap ob.bids depth.toNat,depthOf ob.heap ob.asks depth.toNat)

/-- `Process` on a freshly built order. -/
def place (ob : OrderBook) (a : OrderArgs) : Option (List Trade × OrderBook) :=
  let (order,heap) := newOrder ob.heap a
  process { ob with heap := heap } order

end TradingPlatform.Orderbook
