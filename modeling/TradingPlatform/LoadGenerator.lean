import TradingPlatform.Fanout
import TradingPlatform.Runs
import TradingPlatform.Text

/-! `Orchestrator.Run` of `pkg/loadgen/orchestrator.go` and `NoiseTraderBot.Start` of
`profiles.go`. `Run`, every bot and the metrics collector are parties that share a context, a
wait group and a buffered channel; an action is the next thing one of them does, and any party
that is not blocked may go next. Timers are left open: a ticker may fire and the context may
expire at any moment, and an answer may take any time. -/
namespace TradingPlatform.Loadgen

open Fanout Runs Text

structure LatencyMetric where
  latency : Int64
  isSuccess : Bool
  deriving DecidableEq, Repr

structure Orchestrator where
  totalTPS : Int64
  duration : Int64
  numBots : Int64
  deriving DecidableEq, Repr

def Orchestrator.tpsPerBot (o : Orchestrator) : Int64 :=
  let tpsPerBot := o.totalTPS / o.numBots
  if tpsPerBot < 1 then 1 else tpsPerBot

/-- The interval of a bot's ticker, in nanoseconds. -/
def Orchestrator.interval (o : Orchestrator) : Int64 := 1000000000 / o.tpsPerBot

structure PlaceOrderReq where
  id : Bytes
  side : Int64
  type : Int64
  price : UInt64
  quantity : UInt64
  deriving DecidableEq, Repr

/-- What a bot draws for one order. -/
structure Draw where
  id : Bytes
  side : Fin 2
  orderType : Fin 2
  price : Fin 2000
  qty : Fin 100

def Draw.order (d : Draw) : PlaceOrderReq where
  id := d.id
  side := Int64.ofNat d.side
  type := Int64.ofNat d.orderType
  -- a market order does not need a price
  price := if d.orderType.val = 1 then 0 else UInt64.ofNat (10000 + d.price)
  quantity := UInt64.ofNat (1 + d.qty)

/-- What `httpClient.Do` returns. -/
inductive Reply where
  | error
  | status (code : Int64)
  deriving DecidableEq, Repr

def Reply.success : Reply → Bool
  | .error => false
  | .status code => code = 200

/-- A request on which `httpClient.Do` was called and has returned. -/
structure Exchange where
  request : PlaceOrderReq
  reply : Reply
  latency : Int64
  deriving DecidableEq, Repr

def Exchange.metric (x : Exchange) : LatencyMetric := ⟨x.latency,x.reply.success⟩

inductive Label where
  | error
  | success
  deriving DecidableEq, Repr

/-- The collector's variables, with what it has told the exporter. -/
structure Tally where
  totalRequests : Int64
  successCount : Int64
  totalLatency : Int64
  exported : List (Label × Int64)
  deriving DecidableEq, Repr

def Tally.zero : Tally := ⟨0,0,0,[]⟩

/-- The body of the collector's loop. -/
def Tally.count (t : Tally) (m : LatencyMetric) : Tally where
  totalRequests := t.totalRequests + 1
  successCount := if m.isSuccess then t.successCount + 1 else t.successCount
  totalLatency := t.totalLatency + m.latency
  exported := t.exported ++ [(if m.isSuccess then .success else .error,m.latency)]

/-- The lines of the summary. The last prints the quotient of its two numbers. -/
inductive Line where
  | completed
  | totalRequests (n : Int64)
  | successful (n : Int64)
  | averageLatency (d : Int64)
  | actualTPS (requests duration : Int64)
  deriving DecidableEq, Repr

def summary (o : Orchestrator) (t : Tally) : List Line :=
  [.completed,.totalRequests t.totalRequests,.successful t.successCount] ++
    if 0 < t.totalRequests then
      [.averageLatency (t.totalLatency / t.totalRequests),.actualTPS t.totalRequests o.duration]
    else []

/-- Where a bot stands: before its ticker is made, at its select, in `Do`, at its send, or
returned with `wg.Done` called. -/
inductive Bot where
  | starting
  | waiting
  | inFlight (request : PlaceOrderReq)
  | sending (m : LatencyMetric)
  | finished
  deriving DecidableEq, Repr

inductive Collector where
  | unstarted
  | ranging
  | counting (m : LatencyMetric)
  | ended
  deriving DecidableEq, Repr

/-- Where `Run` stands: in its loop, at `wg.Wait`, before the close, at `<-metricsDone`, or
after its last line. -/
inductive Stage where
  | spawning
  | waiting
  | closing
  | awaiting
  | printed
  deriving DecidableEq, Repr

structure State where
  expired : Bool
  metricsChan : Chan LatencyMetric
  wg : Nat
  bots : List Bot
  stage : Stage
  collector : Collector
  tally : Tally
  crashed : Bool
  deriving DecidableEq, Repr

inductive Panic where
  | ticker
  | sendOnClosed
  | closeOfClosed
  | negativeWaitGroup
  deriving DecidableEq, Repr

inductive Event where
  | called (request : PlaceOrderReq)
  | answered (x : Exchange)
  | counted (m : LatencyMetric)
  | printed (lines : List Line)
  | panicked (why : Panic)
  | quiet
  deriving DecidableEq, Repr

/-- `Run` up to its loop; `none` is a panic of `make` or of the division. -/
def Orchestrator.start (o : Orchestrator) : Option State :=
  (Chan.make (o.totalTPS * 10).toInt).bind fun metricsChan =>
    if o.numBots = 0 then none
    else some ⟨false,metricsChan,0,[],.spawning,.unstarted,.zero,false⟩

def State.panic (s : State) (why : Panic) : Event × State := (.panicked why,{ s with crashed := true })

def State.place (s : State) (b : Nat) (bot : Bot) : State := { s with bots := s.bots.set b bot }

/-- A round of the loop that starts the bots, or its end, after which the collector is started. -/
def spawn (o : Orchestrator) (s : State) : Option (Event × State) :=
  if s.stage = .spawning then
    if (s.bots.length : Int) < o.numBots.toInt then
      some (.quiet,{ s with wg := s.wg + 1, bots := s.bots ++ [.starting] })
    else some (.quiet,{ s with stage := .waiting, collector := .ranging })
  else none

/-- `NewTicker` panics on an interval that is not positive. -/
def newTicker (o : Orchestrator) (s : State) (b : Nat) : Option (Event × State) :=
  match s.bots[b]? with
  | some .starting => some (if o.interval ≤ 0 then s.panic .ticker else (.quiet,s.place b .waiting))
  | _ => none

/-- The select's first branch, with the deferred `wg.Done`. -/
def ctxDone (s : State) (b : Nat) : Option (Event × State) :=
  match s.bots[b]? with
  | some .waiting =>
    if s.expired then
      match s.wg with
      | 0 => some (s.panic .negativeWaitGroup)
      | wg + 1 => some (.quiet,{ s.place b .finished with wg := wg })
    else none
  | _ => none

/-- The select's second branch up to `Do`. Where the endpoint makes no request it starts over. -/
def tick (s : State) (b : Nat) (d : Draw) (built : Bool) : Option (Event × State) :=
  match s.bots[b]? with
  | some .waiting =>
    if built then some (.called d.order,s.place b (.inFlight d.order)) else some (.quiet,s)
  | _ => none

def answer (s : State) (b : Nat) (reply : Reply) (latency : Int64) : Option (Event × State) :=
  match s.bots[b]? with
  | some (.inFlight request) =>
    let x : Exchange := ⟨request,reply,latency⟩
    some (.answered x,s.place b (.sending x.metric))
  | _ => none

/-- A send into the buffer. A full buffer blocks it. -/
def send (s : State) (b : Nat) : Option (Event × State) :=
  match s.bots[b]? with
  | some (.sending m) => (s.metricsChan.send m).map fun
    | none => s.panic .sendOnClosed
    | some metricsChan => (.quiet,{ s.place b .waiting with metricsChan := metricsChan })
  | _ => none

/-- A send to the collector, which waits at an empty channel; without a buffer it is the only
way to send. -/
def handOver (s : State) (b : Nat) : Option (Event × State) :=
  match s.bots[b]? with
  | some (.sending m) =>
    if s.metricsChan.closed = false ∧ s.metricsChan.buffer = [] ∧ s.collector = .ranging then
      some (.quiet,{ s.place b .waiting with collector := .counting m })
    else none
  | _ => none

/-- The collector receives, or finds the channel closed and empty and closes `metricsDone`. -/
def receive (s : State) : Option (Event × State) :=
  if s.collector = .ranging then
    s.metricsChan.receive.map fun
      | (some m,metricsChan) => (.quiet,{ s with metricsChan := metricsChan, collector := .counting m })
      | (none,_) => (.quiet,{ s with collector := .ended })
  else none

def count (s : State) : Option (Event × State) :=
  match s.collector with
  | .counting m => some (.counted m,{ s with collector := .ranging, tally := s.tally.count m })
  | _ => none

/-- `Run` after its loop: the wait, the close, and the summary once `metricsDone` is closed. -/
def proceed (o : Orchestrator) (s : State) : Option (Event × State) :=
  match s.stage with
  | .waiting => if s.wg = 0 then some (.quiet,{ s with stage := .closing }) else none
  | .closing =>
    match s.metricsChan.close with
    | none => some (s.panic .closeOfClosed)
    | some metricsChan => some (.quiet,{ s with stage := .awaiting, metricsChan := metricsChan })
  | .awaiting =>
    if s.collector = .ended then some (.printed (summary o s.tally),{ s with stage := .printed }) else none
  | _ => none

inductive Action where
  | spawn
  | newTicker (b : Nat)
  | expire
  | ctxDone (b : Nat)
  | tick (b : Nat) (d : Draw) (built : Bool)
  | answer (b : Nat) (reply : Reply) (latency : Int64)
  | send (b : Nat)
  | handOver (b : Nat)
  | receive
  | count
  | proceed

/-- A panic ends the process. -/
def State.step (o : Orchestrator) (s : State) (a : Action) : Option (Event × State) :=
  if s.crashed then none else
  match a with
  | .spawn => spawn o s
  | .newTicker b => newTicker o s b
  | .expire => some (.quiet,{ s with expired := true })
  | .ctxDone b => ctxDone s b
  | .tick b d built => tick s b d built
  | .answer b reply latency => answer s b reply latency
  | .send b => send s b
  | .handOver b => handOver s b
  | .receive => receive s
  | .count => count s
  | .proceed => proceed o s

variable {o : Orchestrator} {s s' : State} {e : Event} {es : List Event}

/-- What a step does, and when it can be made. -/
inductive Moves (o : Orchestrator) (s : State) : Event → State → Prop where
  | spawned (spawning : s.stage = .spawning) :
      Moves o s .quiet { s with wg := s.wg + 1, bots := s.bots ++ [.starting] }
  | launched (spawning : s.stage = .spawning) : Moves o s .quiet { s with stage := .waiting, collector := .ranging }
  | noTicker (late : o.interval ≤ 0) : Moves o s (s.panic .ticker).1 (s.panic .ticker).2
  | started (pre post) (place : s.bots = pre ++ .starting :: post) :
      Moves o s .quiet { s with bots := pre ++ .waiting :: post }
  | expired : Moves o s .quiet { s with expired := true }
  | overdone (pre post) (place : s.bots = pre ++ .waiting :: post) (none : s.wg = 0) :
      Moves o s (s.panic .negativeWaitGroup).1 (s.panic .negativeWaitGroup).2
  | left (pre post wg) (place : s.bots = pre ++ .waiting :: post) (some : s.wg = wg + 1) :
      Moves o s .quiet { s with bots := pre ++ .finished :: post, wg := wg }
  | skipped : Moves o s .quiet s
  | called (pre post d) (place : s.bots = pre ++ .waiting :: post) :
      Moves o s (.called (Draw.order d)) { s with bots := pre ++ .inFlight d.order :: post }
  | answered (pre post x) (place : s.bots = pre ++ .inFlight x.request :: post) :
      Moves o s (.answered x) { s with bots := pre ++ .sending x.metric :: post }
  | burnt (pre post m) (place : s.bots = pre ++ .sending m :: post) (closed : s.metricsChan.closed = true) :
      Moves o s (s.panic .sendOnClosed).1 (s.panic .sendOnClosed).2
  | sent (pre post m) (place : s.bots = pre ++ .sending m :: post) (opened : s.metricsChan.closed = false) :
      Moves o s .quiet { s with
        bots := pre ++ .waiting :: post
        metricsChan := { s.metricsChan with buffer := s.metricsChan.buffer ++ [m] } }
  | handed (pre post m) (place : s.bots = pre ++ .sending m :: post) (ranging : s.collector = .ranging) :
      Moves o s .quiet { s with bots := pre ++ .waiting :: post, collector := .counting m }
  | received (m rest) (ranging : s.collector = .ranging) (first : s.metricsChan.buffer = m :: rest) :
      Moves o s .quiet { s with
        metricsChan := { s.metricsChan with buffer := rest }
        collector := .counting m }
  | drained (ranging : s.collector = .ranging) (closed : s.metricsChan.closed = true)
      (empty : s.metricsChan.buffer = []) :
      Moves o s .quiet { s with collector := .ended }
  | counted (m) (counting : s.collector = .counting m) :
      Moves o s (.counted m) { s with collector := .ranging, tally := s.tally.count m }
  | joined (waiting : s.stage = .waiting) (none : s.wg = 0) : Moves o s .quiet { s with stage := .closing }
  | reclosed (closing : s.stage = .closing) (closed : s.metricsChan.closed = true) :
      Moves o s (s.panic .closeOfClosed).1 (s.panic .closeOfClosed).2
  | closed (closing : s.stage = .closing) (opened : s.metricsChan.closed = false) :
      Moves o s .quiet { s with stage := .awaiting, metricsChan := { s.metricsChan with closed := true } }
  | printed (awaiting : s.stage = .awaiting) (ended : s.collector = .ended) :
      Moves o s (.printed (summary o s.tally)) { s with stage := .printed }

theorem State.place_swaps (found : s.bots[b]? = some old) (new : Bot) :
    ∃ pre post, s.bots = pre ++ old :: post ∧ s.place b new = { s with bots := pre ++ new :: post } := by
  obtain ⟨within,rfl⟩ := List.getElem?_eq_some_iff.mp found
  obtain ⟨pre,post,place,_,moved⟩ := @List.exists_of_set _ b new _ within
  exact ⟨pre,post,place,by simp only [State.place,moved]⟩

theorem spawn_moves (result : spawn o s = some (e,s')) : Moves o s e s' := by
  simp only [spawn] at result
  split at result
  · next spawning =>
    split at result <;> cases result
    · exact .spawned spawning
    · exact .launched spawning
  · cases result

theorem newTicker_moves (result : newTicker o s b = some (e,s')) : Moves o s e s' := by
  simp only [newTicker] at result
  split at result
  · next found =>
    obtain ⟨pre,post,place,moved⟩ := State.place_swaps found .waiting
    rw [moved] at result
    split at result <;> cases result
    · next late => exact .noTicker late
    · exact .started pre post place
  · cases result

theorem ctxDone_moves (result : ctxDone s b = some (e,s')) : Moves o s e s' := by
  simp only [ctxDone] at result
  split at result
  · next found =>
    obtain ⟨pre,post,place,moved⟩ := State.place_swaps found .finished
    rw [moved] at result
    split at result
    · split at result <;> cases result
      · next none => exact .overdone pre post place none
      · next wg some => exact .left pre post wg place some
    · cases result
  · cases result

theorem tick_moves (result : tick s b d built = some (e,s')) : Moves o s e s' := by
  simp only [tick] at result
  split at result
  · next found =>
    obtain ⟨pre,post,place,moved⟩ := State.place_swaps found (.inFlight d.order)
    rw [moved] at result
    split at result <;> cases result
    · exact .called pre post d place
    · exact .skipped
  · cases result

theorem answer_moves (result : answer s b reply latency = some (e,s')) : Moves o s e s' := by
  simp only [answer] at result
  split at result
  · next request found =>
    obtain ⟨pre,post,place,moved⟩ := State.place_swaps found (.sending (Exchange.metric ⟨request,reply,latency⟩))
    rw [moved] at result
    cases result
    exact .answered pre post ⟨request,reply,latency⟩ place
  · cases result

theorem send_moves (result : send s b = some (e,s')) : Moves o s e s' := by
  simp only [send] at result
  split at result
  · next m found =>
    obtain ⟨pre,post,place,moved⟩ := State.place_swaps found .waiting
    rw [moved,Chan.send] at result
    split at result
    · next closed =>
      cases result
      exact .burnt pre post m place closed
    · next opened =>
      split at result <;> cases result
      exact .sent pre post m place (by simpa using opened)
  · cases result

theorem handOver_moves (result : handOver s b = some (e,s')) : Moves o s e s' := by
  simp only [handOver] at result
  split at result
  · next m found =>
    obtain ⟨pre,post,place,moved⟩ := State.place_swaps found .waiting
    rw [moved] at result
    split at result
    · next free =>
      cases result
      exact .handed pre post m place free.2.2
    · cases result
  · cases result

theorem receive_moves (result : receive s = some (e,s')) : Moves o s e s' := by
  simp only [receive] at result
  split at result
  · next ranging =>
    cases first : s.metricsChan.buffer with
    | nil =>
      cases closed : s.metricsChan.closed <;> simp only [Chan.receive,first,closed] at result <;> cases result
      exact .drained ranging closed first
    | cons m rest =>
      simp only [Chan.receive,first] at result
      cases result
      exact .received m rest ranging first
  · cases result

theorem count_moves (result : count s = some (e,s')) : Moves o s e s' := by
  simp only [count] at result
  split at result
  · next m counting =>
    cases result
    exact .counted m counting
  · cases result

theorem proceed_moves (result : proceed o s = some (e,s')) : Moves o s e s' := by
  simp only [proceed] at result
  split at result
  · next waiting =>
    split at result <;> cases result
    next none => exact .joined waiting none
  · next closing =>
    cases closed : s.metricsChan.closed <;> simp only [Chan.close,closed] at result <;> cases result
    · exact .closed closing closed
    · exact .reclosed closing closed
  · next awaiting =>
    split at result <;> cases result
    next ended => exact .printed awaiting ended
  · cases result

theorem step_moves (a : Action) (result : s.step o a = some (e,s')) : s.crashed = false ∧ Moves o s e s' := by
  unfold State.step at result
  split at result
  · cases result
  next running =>
  refine ⟨by simpa using running,?_⟩
  cases a with
  | spawn => exact spawn_moves result
  | newTicker => exact newTicker_moves result
  | expire =>
    cases result
    exact .expired
  | ctxDone => exact ctxDone_moves result
  | tick => exact tick_moves result
  | answer => exact answer_moves result
  | send => exact send_moves result
  | handOver => exact handOver_moves result
  | receive => exact receive_moves result
  | count => exact count_moves result
  | proceed => exact proceed_moves result

end TradingPlatform.Loadgen
