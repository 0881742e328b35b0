import Mathlib.Logic.Function.Basic

/-! Orders and price levels as heap cells, after `pkg/orderbook/order.go` and
`pkg/orderbook/limit.go`. Pointers are references into the heap and `nil` is
`none`; 64-bit arithmetic wraps as it does in the source. The order timestamp is
left out: nothing reads it. -/
namespace TradingPlatform.Orderbook

/-- Go strings are immutable byte sequences. -/
abbrev GoString := List UInt8

/-- `Side` and `OrderType` are machine integers in the source, not closed
enumerations: any value may reach the book. -/
abbrev Side := Int64
abbrev OrderType := Int64

def buy : Side := 0
def sell : Side := 1
def limitOrder : OrderType := 0
def marketOrder : OrderType := 1

abbrev OrderRef := Nat
abbrev LimitRef := Nat

structure Order where
  id : GoString
  side : Side
  type : OrderType
  price : UInt64
  quantity : UInt64
  filledQty : UInt64
  next : Option OrderRef
  prev : Option OrderRef
  limit : Option LimitRef
  deriving DecidableEq, Repr

structure Limit where
  price : UInt64
  totalVolume : UInt64
  head : Option OrderRef
  tail : Option OrderRef
  deriving DecidableEq, Repr

/-- History variable: the two order instances behind one trade. IDs may be reused,
instances are not. -/
structure Fill where
  maker : OrderRef
  taker : OrderRef
  price : UInt64
  quantity : UInt64
  deriving DecidableEq, Repr

/-- Cells below the counters are allocated. The ledger is never read. -/
structure Heap where
  order : OrderRef → Order
  limit : LimitRef → Limit
  orderCount : Nat
  limitCount : Nat
  ledger : List Fill

def Heap.empty : Heap where
  order := fun _ => ⟨[],0,0,0,0,0,none,none,none⟩
  limit := fun _ => ⟨0,0,none,none⟩
  orderCount := 0
  limitCount := 0
  ledger := []

def Heap.modifyOrder (h : Heap) (r : OrderRef) (f : Order → Order) : Heap :=
  { h with order := Function.update h.order r (f (h.order r)) }

def Heap.modifyLimit (h : Heap) (l : LimitRef) (f : Limit → Limit) : Heap :=
  { h with limit := Function.update h.limit l (f (h.limit l)) }

def Heap.record (h : Heap) (fill : Fill) : Heap := { h with ledger := h.ledger ++ [fill] }

/-- The arguments of `NewOrder`. -/
structure OrderArgs where
  id : GoString
  side : Side
  type : OrderType
  price : UInt64
  quantity : UInt64
  deriving DecidableEq, Repr

def OrderArgs.order (a : OrderArgs) : Order :=
  ⟨a.id,a.side,a.type,a.price,a.quantity,0,none,none,none⟩

/-- The fields no operation writes after construction. -/
def Order.args (o : Order) : OrderArgs := ⟨o.id,o.side,o.type,o.price,o.quantity⟩

def newOrder (h : Heap) (a : OrderArgs) : OrderRef × Heap :=
  (h.orderCount, { h with
    order := Function.update h.order h.orderCount a.order
    orderCount := h.orderCount + 1 })

def Order.remainingQty (o : Order) : UInt64 := o.quantity - o.filledQty

def newLimit (h : Heap) (price : UInt64) : LimitRef × Heap :=
  (h.limitCount, { h with
    limit := Function.update h.limit h.limitCount ⟨price,0,none,none⟩
    limitCount := h.limitCount + 1 })

/-- `Limit.AddOrder`. A level with a head and no tail would panic on `l.Tail.Next`. -/
def addOrder (h : Heap) (l : LimitRef) (order : OrderRef) : Option Heap :=
  let h := h.modifyOrder order fun o => { o with limit := some l }
  let linked := match (h.limit l).head, (h.limit l).tail with
    | none, _ => some (h.modifyLimit l fun x => { x with head := some order, tail := some order })
    | some _, none => none
    | some _, some tail =>
      let h := h.modifyOrder tail fun o => { o with next := some order }
      let h := h.modifyOrder order fun o => { o with prev := some tail, next := none }
      some (h.modifyLimit l fun x => { x with tail := some order })
  linked.map fun h => h.modifyLimit l fun x =>
    { x with totalVolume := x.totalVolume + (h.order order).remainingQty }

/-- `Limit.RemoveOrder`. -/
def removeOrder (h : Heap) (l : LimitRef) (order : OrderRef) : Heap :=
  let h := match (h.order order).prev with
    | some prev => h.modifyOrder prev fun o => { o with next := (h.order order).next }
    | none => h.modifyLimit l fun x => { x with head := (h.order order).next }
  let h := match (h.order order).next with
    | some next => h.modifyOrder next fun o => { o with prev := (h.order order).prev }
    | none => h.modifyLimit l fun x => { x with tail := (h.order order).prev }
  let h := h.modifyLimit l fun x =>
    { x with totalVolume := x.totalVolume - (h.order order).remainingQty }
  h.modifyOrder order fun o => { o with limit := none, next := none, prev := none }

@[simp] theorem modifyOrder_order (h : Heap) (r s : OrderRef) (f : Order → Order) :
    (h.modifyOrder r f).order s = if s = r then f (h.order r) else h.order s := by
  simp [Heap.modifyOrder,Function.update_apply]

@[simp] theorem modifyOrder_limit (h : Heap) (r : OrderRef) (f : Order → Order) :
    (h.modifyOrder r f).limit = h.limit := rfl

@[simp] theorem modifyOrder_orderCount (h : Heap) (r : OrderRef) (f : Order → Order) :
    (h.modifyOrder r f).orderCount = h.orderCount := rfl

@[simp] theorem modifyOrder_limitCount (h : Heap) (r : OrderRef) (f : Order → Order) :
    (h.modifyOrder r f).limitCount = h.limitCount := rfl

@[simp] theorem modifyOrder_ledger (h : Heap) (r : OrderRef) (f : Order → Order) :
    (h.modifyOrder r f).ledger = h.ledger := rfl

@[simp] theorem modifyLimit_limit (h : Heap) (l m : LimitRef) (f : Limit → Limit) :
    (h.modifyLimit l f).limit m = if m = l then f (h.limit l) else h.limit m := by
  simp [Heap.modifyLimit,Function.update_apply]

@[simp] theorem modifyLimit_order (h : Heap) (l : LimitRef) (f : Limit → Limit) :
    (h.modifyLimit l f).order = h.order := rfl

@[simp] theorem modifyLimit_orderCount (h : Heap) (l : LimitRef) (f : Limit → Limit) :
    (h.modifyLimit l f).orderCount = h.orderCount := rfl

@[simp] theorem modifyLimit_limitCount (h : Heap) (l : LimitRef) (f : Limit → Limit) :
    (h.modifyLimit l f).limitCount = h.limitCount := rfl

@[simp] theorem modifyLimit_ledger (h : Heap) (l : LimitRef) (f : Limit → Limit) :
    (h.modifyLimit l f).ledger = h.ledger := rfl

@[simp] theorem record_order (h : Heap) (fill : Fill) : (h.record fill).order = h.order := rfl

@[simp] theorem record_limit (h : Heap) (fill : Fill) : (h.record fill).limit = h.limit := rfl

@[simp] theorem record_orderCount (h : Heap) (fill : Fill) :
    (h.record fill).orderCount = h.orderCount := rfl

@[simp] theorem record_limitCount (h : Heap) (fill : Fill) :
    (h.record fill).limitCount = h.limitCount := rfl

@[simp] theorem record_ledger (h : Heap) (fill : Fill) :
    (h.record fill).ledger = h.ledger ++ [fill] := rfl

end TradingPlatform.Orderbook
