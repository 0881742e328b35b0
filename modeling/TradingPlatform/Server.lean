import TradingPlatform.Calls

/-! The engine of `pkg/api/server.go`: handlers that put requests on a buffered channel, one
loop that takes them off, and a cache of the depth that readers see. The loop is cut where it
can block, at its select and at the hub, and everything else may happen at the cuts. Between
`Process` and the end of a round it touches nothing shared but the buffered result channel. -/
namespace TradingPlatform.Api

open Orderbook

/-- A request with the identity of its result channel. -/
structure OrderRequest where
  call : Call
  result : Nat
  deriving DecidableEq

structure Response where
  success : Bool
  trades : List Trade
  error : String
  deriving DecidableEq

abbrev Depth := List PriceLevel × List PriceLevel

/-- Where the matching loop stands: at its select, with a request it has taken, or about to
hand trades or a depth to the hub. -/
inductive Control where
  | waiting
  | took (req : OrderRequest)
  | announcing (trades : List Trade)
  | publishing (data : Depth)

structure Server where
  ob : OrderBook
  inputChan : List OrderRequest
  depthCache : Depth
  bookChanged : Bool
  loop : Control
  results : Nat → Option Response
  issued : Nat

def newServer : Server := ⟨newOrderBook,[],([],[]),false,.waiting,fun _ => none,0⟩

inductive Action where
  | submit (c : Call)
  | dequeue
  | handle
  | announce
  | tick
  | publish
  | receive (channel : Nat)
  | getOrderBook

/-- What an action lets an observer see. -/
inductive Observation where
  | rejected
  | submitted (req : OrderRequest)
  | dequeued (req : OrderRequest)
  | responded (req : OrderRequest) (resp : Response)
  | trade (trades : List Trade)
  | depth (data : Depth)
  | ticked
  | received (channel : Nat) (resp : Response)
  | returned (data : Depth)

/-- The checks of the two handlers. -/
def acceptsCall : Call → Bool
  | .process a => acceptsPlace a
  | .cancel _ => true

/-- `handlePlaceOrder` and `handleCancelOrder` up to their wait. A full channel blocks them. -/
def submit (s : Server) (c : Call) : Option (Observation × Server) :=
  if acceptsCall c then
    if s.inputChan.length < 100000 then
      let req : OrderRequest := ⟨c,s.issued⟩
      some (.submitted req,{ s with inputChan := s.inputChan ++ [req], issued := s.issued + 1 })
    else none
  else some (.rejected,s)

def dequeue (s : Server) : Option (Observation × Server) :=
  match s.loop,s.inputChan with
  | .waiting,req :: rest => some (.dequeued req,{ s with inputChan := rest, loop := .took req })
  | _,_ => none

/-- A send on a result channel, which has room for one response. -/
def send (s : Server) (req : OrderRequest) (resp : Response) : Option Server :=
  match s.results req.result with
  | none => some { s with results := Function.update s.results req.result (some resp) }
  | some _ => none

/-- The two branches of the switch on the request's type. -/
def handle (s : Server) : Option (Observation × Server) :=
  match s.loop with
  | .took ⟨.process a,result⟩ => do
    let (trades,ob) ← place s.ob a
    let resp : Response := ⟨true,trades,""⟩
    let s ← send { s with ob := ob } ⟨.process a,result⟩ resp
    let loop := if trades.length > 0 then Control.announcing trades else .waiting
    some (.responded ⟨.process a,result⟩ resp,{ s with bookChanged := true, loop := loop })
  | .took ⟨.cancel id,result⟩ =>
    let (success,ob) := cancel s.ob id
    if success then do
      let resp : Response := ⟨true,[],""⟩
      let s ← send { s with ob := ob } ⟨.cancel id,result⟩ resp
      some (.responded ⟨.cancel id,result⟩ resp,{ s with bookChanged := true, loop := .waiting })
    else do
      let resp : Response := ⟨false,[],"order not found"⟩
      let s ← send { s with ob := ob } ⟨.cancel id,result⟩ resp
      some (.responded ⟨.cancel id,result⟩ resp,{ s with loop := .waiting })
  | _ => none

def announce (s : Server) : Option (Observation × Server) :=
  match s.loop with
  | .announcing trades => some (.trade trades,{ s with loop := .waiting })
  | _ => none

/-- The ticker's branch up to the hub. -/
def tick (s : Server) : Option (Observation × Server) :=
  match s.loop with
  | .waiting =>
    if s.bookChanged then
      (getDepth s.ob 50).map fun data => (.ticked,{ s with depthCache := data, loop := .publishing data })
    else some (.ticked,s)
  | _ => none

def publish (s : Server) : Option (Observation × Server) :=
  match s.loop with
  | .publishing data => some (.depth data,{ s with bookChanged := false, loop := .waiting })
  | _ => none

/-- The end of a handler's wait. -/
def receive (s : Server) (channel : Nat) : Option (Observation × Server) :=
  (s.results channel).map fun resp =>
    (.received channel resp,{ s with results := Function.update s.results channel none })

def step (s : Server) : Action → Option (Observation × Server)
  | .submit c => submit s c
  | .dequeue => dequeue s
  | .handle => handle s
  | .announce => announce s
  | .tick => tick s
  | .publish => publish s
  | .receive channel => receive s channel
  | .getOrderBook => some (.returned s.depthCache,s)

end TradingPlatform.Api
