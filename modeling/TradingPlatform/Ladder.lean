import TradingPlatform.LevelQueue
import TradingPlatform.OrderBook

/-! The order book without pointers: sides are lists of levels and levels are lists
of resting orders. Sweeping a side is a function of these lists alone. A level
whose wrapped volume is zero leaves its side even when its queue is not empty; such
levels are kept as detached, because their orders can still be cancelled. -/
namespace TradingPlatform.Orderbook

/-- One trade of a sweep, with the maker as it stood before. -/
structure Execution where
  maker : Resting
  price : UInt64
  quantity : UInt64
  deriving DecidableEq, Repr

def Execution.trade (takerID : GoString) (x : Execution) : Trade :=
  ⟨x.maker.id,takerID,x.price,x.quantity⟩

def Execution.fill (taker : OrderRef) (x : Execution) : Fill :=
  ⟨x.maker.ref,taker,x.price,x.quantity⟩

/-- Makers that are filled completely lose their entry in the ID map. -/
def release (orders : OrderMap) (xs : List Execution) : OrderMap :=
  xs.foldl (fun m x => if x.quantity = x.maker.remaining then Function.update m x.maker.id none else m)
    orders

structure Filled where
  fills : List Execution
  queue : List Resting
  left : UInt64

/-- An incoming quantity eats a queue from the front. -/
def fillQueue (price : UInt64) : UInt64 → List Resting → Filled
  | q, [] => ⟨[],[],q⟩
  | q, e :: es =>
    if q = 0 then ⟨[],e :: es,q⟩
    else if e.remaining ≤ q then
      let rest := fillQueue price (q - e.remaining) es
      ⟨⟨e,price,e.remaining⟩ :: rest.fills,rest.queue,rest.left⟩
    else ⟨[⟨e,price,q⟩],{ e with remaining := e.remaining - q } :: es,0⟩

structure Sweep where
  fills : List Execution
  makers : List Level
  dropped : List Level
  left : UInt64

/-- A sweep goes down the levels until the quantity is used up or a level stops it. -/
def sweep (stops : UInt64 → Bool) : UInt64 → List Level → Sweep
  | q, [] => ⟨[],[],[],q⟩
  | q, L :: levels =>
    if q = 0 ∨ stops L.price = true then ⟨[],L :: levels,[],q⟩
    else
      let f := fillQueue L.price q L.queue
      let L := { L with queue := f.queue }
      if L.volume = 0 then
        let rest := sweep stops f.left levels
        ⟨f.fills ++ rest.fills,rest.makers,L :: rest.dropped,rest.left⟩
      else ⟨f.fills,L :: levels,[],f.left⟩

/-- A quantity that outlives a queue has emptied it. -/
theorem fillQueue_left (price q : UInt64) (es : List Resting) (rest : (fillQueue price q es).queue ≠ []) :
    (fillQueue price q es).left = 0 := by
  fun_induction fillQueue price q es with
  | case1 => exact absurd rfl rest
  | case2 => rfl
  | case3 q e es some' covers later ih => exact ih rest
  | case4 => rfl

/-- A queue only ever loses members from its front. -/
theorem fillQueue_suffix (price q : UInt64) (es : List Resting) :
    (fillQueue price q es).queue.map Resting.ref <:+ es.map Resting.ref := by
  fun_induction fillQueue price q es with
  | case1 => exact List.suffix_refl _
  | case2 => exact List.suffix_refl _
  | case3 q e es some' covers later ih => exact ih.trans (List.suffix_cons _ _)
  | case4 => exact List.suffix_refl _

theorem fillQueue_left_of_volume (L : Level) (q : UInt64)
    (volume : ({ L with queue := (fillQueue L.price q L.queue).queue } : Level).volume ≠ 0) :
    (fillQueue L.price q L.queue).left = 0 := by
  apply fillQueue_left
  intro empty
  exact volume (by simp [Level.volume,empty])

theorem sweep_zero (stops : UInt64 → Bool) (levels : List Level) :
    sweep stops 0 levels = ⟨[],levels,[],0⟩ := by
  cases levels <;> simp [sweep]

/-- Sweeping moves no order into a queue. -/
theorem sweep_refs (stops : UInt64 → Bool) (q : UInt64) (levels : List Level) (r : OrderRef)
    (member : r ∈ refsOf ((sweep stops q levels).makers ++ (sweep stops q levels).dropped)) :
    r ∈ refsOf levels := by
  induction levels generalizing q with
  | nil => simpa [sweep] using member
  | cons L levels ih =>
    simp only [sweep] at member
    split at member
    · simpa using member
    · split at member
      · simp only [refsOf_append,refsOf_cons,List.mem_append] at member ih ⊢
        rcases member with inMakers | atHead | inDropped
        · exact .inr (ih _ (.inl inMakers))
        · exact .inl ((fillQueue_suffix L.price q L.queue).subset atHead)
        · exact .inr (ih _ (.inr inDropped))
      · simp only [List.append_nil,refsOf_cons,List.mem_append] at member ⊢
        rcases member with atHead | later
        · exact .inl ((fillQueue_suffix L.price q L.queue).subset atHead)
        · exact .inr later

theorem release_append (orders : OrderMap) (xs ys : List Execution) :
    release orders (xs ++ ys) = release (release orders xs) ys := by
  simp [release]

/-- The order in which a side lists its prices: bids descend and asks ascend. -/
def precedes (descending : Bool) (a b : UInt64) : Bool :=
  if descending then decide (b < a) else decide (a < b)

def SortedBy (descending : Bool) (levels : List Level) : Prop :=
  levels.Pairwise fun L M => precedes descending L.price M.price = true

/-- A new entry joins the level at its price or opens one at its place in the order. -/
def settle (descending : Bool) (fresh : LimitRef) (e : Resting) (levels : List Level) : List Level :=
  levels.takeWhile (fun L => precedes descending L.price e.price) ++
    match levels.dropWhile (fun L => precedes descending L.price e.price) with
    | [] => [⟨fresh,e.price,[e]⟩]
    | L :: back =>
      if L.price = e.price then { L with queue := L.queue ++ [e] } :: back
      else ⟨fresh,e.price,[e]⟩ :: L :: back

/-- The book as lists. The counters mirror the allocation of references. -/
structure Ladder where
  bids : List Level
  asks : List Level
  detached : List Level
  orders : OrderMap
  orderCount : Nat
  limitCount : Nat

def Ladder.empty : Ladder := ⟨[],[],[],fun _ => none,0,0⟩

def Ladder.levels (B : Ladder) : List Level := B.bids ++ (B.asks ++ B.detached)

def Ladder.own (B : Ladder) (side : Side) : List Level := if side = buy then B.bids else B.asks

def Ladder.opposite (B : Ladder) (side : Side) : List Level := if side = buy then B.asks else B.bids

def Ladder.sweepFor (B : Ladder) (a : OrderArgs) : Sweep :=
  sweep (stopsAt a.order) a.quantity (B.opposite a.side)

/-- Only what a limit order could not trade at once comes to rest. -/
def Ladder.rests (B : Ladder) (a : OrderArgs) : Bool :=
  decide ((B.sweepFor a).left ≠ 0) && decide (a.type = limitOrder)

def Ladder.entry (B : Ladder) (a : OrderArgs) : Resting :=
  ⟨B.orderCount,a.id,a.side,a.price,(B.sweepFor a).left⟩

def Ladder.ownAfter (B : Ladder) (a : OrderArgs) : List Level :=
  if B.rests a then settle (decide (a.side = buy)) B.limitCount (B.entry a) (B.own a.side)
  else B.own a.side

def Ladder.ordersAfter (B : Ladder) (a : OrderArgs) : OrderMap :=
  if B.rests a then Function.update (release B.orders (B.sweepFor a).fills) a.id (some B.orderCount)
  else release B.orders (B.sweepFor a).fills

def Ladder.limitsAfter (B : Ladder) (a : OrderArgs) : Nat :=
  if B.rests a && !(B.own a.side).any (fun L => L.price = a.price) then B.limitCount + 1
  else B.limitCount

/-- A zero quantity sweeps nothing and rests nowhere, so it needs no case of its own. -/
def Ladder.place (B : Ladder) (a : OrderArgs) : List Execution × Ladder :=
  let w := B.sweepFor a
  (w.fills,
    { bids := if a.side = buy then B.ownAfter a else w.makers
      asks := if a.side = buy then w.makers else B.ownAfter a
      detached := w.dropped ++ B.detached
      orders := B.ordersAfter a
      orderCount := B.orderCount + 1
      limitCount := B.limitsAfter a })

def locate (r : OrderRef) : List Level → Option (Level × Resting)
  | [] => none
  | L :: levels =>
    match L.queue.find? (fun e => e.ref = r) with
    | some e => some (L,e)
    | none => locate r levels

def Level.strip (r : OrderRef) (L : Level) : Level :=
  { L with queue := L.queue.filter fun e => e.ref ≠ r }

/-- Removing a level by price moves it, with whatever it still holds, off the side. -/
def Ladder.dropLevel (B : Ladder) (side : Side) (price : UInt64) : Ladder :=
  if side = buy then
    { B with
      bids := B.bids.filter fun L => L.price ≠ price
      detached := B.bids.filter (fun L => L.price = price) ++ B.detached }
  else
    { B with
      asks := B.asks.filter fun L => L.price ≠ price
      detached := B.asks.filter (fun L => L.price = price) ++ B.detached }

def Ladder.strip (B : Ladder) (r : OrderRef) (id : GoString) : Ladder :=
  { B with
    bids := B.bids.map (Level.strip r)
    asks := B.asks.map (Level.strip r)
    detached := B.detached.map (Level.strip r)
    orders := Function.update B.orders id none }

def Ladder.cancel (B : Ladder) (id : GoString) : Bool × Ladder :=
  match (B.orders id).bind fun r => locate r B.levels with
  | none => (false,B)
  | some (L,e) =>
    if (L.strip e.ref).volume = 0 then (true,(B.strip e.ref e.id).dropLevel e.side L.price)
    else (true,B.strip e.ref e.id)

def Ladder.depth (B : Ladder) (depth : Nat) : List PriceLevel × List PriceLevel :=
  ((B.bids.take depth).map fun L => ⟨L.price,L.volume⟩,
    (B.asks.take depth).map fun L => ⟨L.price,L.volume⟩)

end TradingPlatform.Orderbook
