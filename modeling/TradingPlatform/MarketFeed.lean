import TradingPlatform.CancelRoute
import TradingPlatform.FeedMessages
import TradingPlatform.Ledger
import TradingPlatform.MarketHub
import TradingPlatform.OrderEntry
import TradingPlatform.Rebuild

/-! The engine and the market-data hub as one system. Requests come in as bytes, the loop matches
them and hands what it has to tell to the hub, and clients get bytes again. -/
namespace TradingPlatform.Api

open Orderbook Documents Text Runs

structure Market where
  server : Server
  hub : Hub

def newMarket : Market := ⟨newServer,newHub⟩

inductive MarketAction where
  | post (body : Bytes)
  | delete (path : Bytes)
  | dequeue
  | handle
  | tell
  | tick
  | receive (channel : Nat)
  | getOrderBook
  | client (a : Websocket.ClientAction)
  | take
  | offer (c : Websocket.ClientRef)
  | finish

inductive MarketEvent where
  | refused (error : Nat × String)
  | engine (o : Observation)
  | told (f : Feed)
  | hub (e : Websocket.Event)

def Market.engine (m : Market) (a : Action) : Option (MarketEvent × Market) :=
  (Api.step m.server a).map fun (o,server) => (.engine o,{ m with server := server })

def Market.client (m : Market) (a : HubAction) : Option (MarketEvent × Market) :=
  (m.hub.step a).map fun (e,hub) => (.hub e,{ m with hub := hub })

/-- The end of `broadcastEvent`: the loop waits for room on the hub's channel. -/
def Market.broadcast (m : Market) (f : Feed) (a : Action) : Option (MarketEvent × Market) :=
  (m.hub.step (.broadcast (broadcastEvent f))).bind fun (_,hub) =>
    (Api.step m.server a).map fun (_,server) => (.told f,⟨server,hub⟩)

def Market.step (m : Market) : MarketAction → Option (MarketEvent × Market)
  | .post body =>
    match handlePlaceOrder body with
    | .error e => some (.refused e,m)
    | .ok a => m.engine (.submit (.process a))
  | .delete path =>
    match handleCancelOrder path with
    | .error e => some (.refused e,m)
    | .ok c => m.engine (.submit c)
  | .dequeue => m.engine .dequeue
  | .handle => m.engine .handle
  | .tell =>
    match m.server.loop with
    | .announcing trades => m.broadcast (.trade trades) .announce
    | .publishing data => m.broadcast (.depth data) .publish
    | _ => none
  | .tick => m.engine .tick
  | .receive channel => m.engine (.receive channel)
  | .getOrderBook => m.engine .getOrderBook
  | .client a => m.client (.client a)
  | .take => m.client .take
  | .offer c => m.client (.offer c)
  | .finish => m.client .finish

/-- What the engine's part of a run looks like. -/
def engineLog (es : List MarketEvent) : List Observation :=
  es.filterMap fun
    | .engine o => some o
    | .told (.trade trades) => some (.trade trades)
    | .told (.depth data) => some (.depth data)
    | _ => none

/-- What the hub's part of a run looks like. -/
def hubLog (es : List MarketEvent) : List Websocket.Event :=
  es.filterMap fun
    | .hub e => some e
    | .told _ => some .quiet
    | _ => none

def published (es : List MarketEvent) : List Feed := es.filterMap fun | .told f => some f | _ => none

def OrderRequest.IsText (req : OrderRequest) : Prop := ∀ a, req.call = .process a → Api.IsText a.id

/-- Every step is a step of the engine, of the hub, or of both at once. -/
inductive Moves (m : Market) : MarketEvent → Market → Prop
  | refuse : Moves m (.refused e) m
  | engine (own : a ≠ .announce ∧ a ≠ .publish) (text : ∀ req ∈ Log.submitted [o], req.IsText)
      (moved : Api.step m.server a = some (o,server)) : Moves m (.engine o) { m with server := server }
  | announce (loop : m.server.loop = .announcing trades) (room : m.hub.broadcast.length < 4096) :
      Moves m (.told (.trade trades)) ⟨{ m.server with loop := .waiting },
        { m.hub with broadcast := m.hub.broadcast ++ [broadcastEvent (.trade trades)] }⟩
  | publish (loop : m.server.loop = .publishing data) (room : m.hub.broadcast.length < 4096) :
      Moves m (.told (.depth data)) ⟨{ m.server with bookChanged := false, loop := .waiting },
        { m.hub with broadcast := m.hub.broadcast ++ [broadcastEvent (.depth data)] }⟩
  | hub (own : ∀ message, a ≠ .broadcast message) (moved : m.hub.step a = some (e,hub)) :
      Moves m (.hub e) { m with hub := hub }

theorem submitted_by (moved : Api.step s a = some (o,s')) (member : req ∈ Log.submitted [o]) : a = .submit req.call := by
  have entered : o = .submitted req := by
    cases o <;> simp_all [Log.submitted]
  subst entered
  cases a with
  | submit c =>
    simp only [Api.step,submit] at moved
    split at moved
    · split at moved
      · rw [← Observation.submitted.inj (Prod.mk.inj (Option.some.inj moved)).1]
      · simp at moved
    · simp at moved
  | dequeue =>
    simp only [Api.step,dequeue] at moved
    split at moved <;> simp at moved
  | handle =>
    cases loop : s.loop with
    | took taken =>
      simp only [Api.step,handle_eq loop] at moved
      obtain ⟨⟨reply,ob⟩,_,same⟩ := Option.bind_eq_some_iff.mp moved
      split at same <;> simp at same
    | _ => simp [Api.step,handle,loop] at moved
  | announce =>
    simp only [Api.step,announce] at moved
    split at moved <;> simp at moved
  | tick =>
    simp only [Api.step,tick] at moved
    split at moved
    · split at moved <;> simp at moved
    · simp at moved
  | publish =>
    simp only [Api.step,publish] at moved
    split at moved <;> simp at moved
  | receive channel =>
    obtain ⟨_,_,same⟩ := Option.map_eq_some_iff.mp moved
    simp at same
  | getOrderBook => simp [Api.step] at moved

theorem Market.engine_moves (result : Market.engine m a = some (e,m')) (own : a ≠ .announce ∧ a ≠ .publish)
    (text : ∀ c, a = .submit c → ∀ x, c = .process x → IsText x.id) : Moves m e m' := by
  obtain ⟨⟨o,server⟩,moved,same⟩ := Option.map_eq_some_iff.mp result
  obtain ⟨rfl,rfl⟩ := Prod.mk.inj same
  exact .engine own (fun req member => text _ (submitted_by moved member)) moved

theorem Market.client_moves (result : Market.client m a = some (e,m')) (own : ∀ message, a ≠ .broadcast message) :
    Moves m e m' := by
  obtain ⟨⟨event,hub⟩,moved,same⟩ := Option.map_eq_some_iff.mp result
  obtain ⟨rfl,rfl⟩ := Prod.mk.inj same
  exact .hub own moved

theorem Market.step_moves (result : Market.step m a = some (e,m')) : Moves m e m' := by
  cases a with
  | post body =>
    simp only [Market.step] at result
    split at result
    · obtain ⟨rfl,rfl⟩ := Prod.mk.inj (Option.some.inj result)
      exact .refuse
    · rename_i a accepted
      refine Market.engine_moves result (by simp) fun c submitted x same => ?_
      rw [same] at submitted
      rw [← Call.process.inj (Action.submit.inj submitted)]
      exact handlePlaceOrder_text accepted
  | delete path =>
    simp only [Market.step] at result
    split at result
    · obtain ⟨rfl,rfl⟩ := Prod.mk.inj (Option.some.inj result)
      exact .refuse
    · rename_i c accepted
      refine Market.engine_moves result (by simp) fun c' submitted x same => ?_
      rw [Action.submit.inj submitted,same] at accepted
      simp only [handleCancelOrder] at accepted
      split at accepted <;> simp at accepted
  | tell =>
    simp only [Market.step] at result
    split at result
    · rename_i trades loop
      simp only [Market.broadcast,Hub.step,Api.step,announce,loop] at result
      split at result
      · rename_i room
        obtain ⟨rfl,rfl⟩ := Prod.mk.inj (Option.some.inj result)
        exact .announce loop room
      · simp at result
    · rename_i data loop
      simp only [Market.broadcast,Hub.step,Api.step,publish,loop] at result
      split at result
      · rename_i room
        obtain ⟨rfl,rfl⟩ := Prod.mk.inj (Option.some.inj result)
        exact .publish loop room
      · simp at result
    · simp at result
  | dequeue => exact Market.engine_moves result (by simp) (by simp)
  | handle => exact Market.engine_moves result (by simp) (by simp)
  | tick => exact Market.engine_moves result (by simp) (by simp)
  | receive channel => exact Market.engine_moves result (by simp) (by simp)
  | getOrderBook => exact Market.engine_moves result (by simp) (by simp)
  | client a => exact Market.client_moves result (by simp)
  | take => exact Market.client_moves result (by simp)
  | offer c => exact Market.client_moves result (by simp)
  | finish => exact Market.client_moves result (by simp)

/-- A round of a loop that is alone with its book: it answers a request or shows the depth. -/
inductive Round where
  | request (c : Call)
  | tick

def round (ob : OrderBook) : Round → Option (List Feed × OrderBook)
  | .request c => (call ob c).map fun (reply,ob) => (if reply.list = [] then [] else [.trade reply.list],ob)
  | .tick => (getDepth ob 50).map fun data => ([.depth data],ob)

def requests (rounds : List Round) : List Call := rounds.filterMap fun | .request c => some c | .tick => none

/-- What such a loop tells when it answers these calls, with the depth shown wherever it likes. -/
def Narrates (calls : List Call) (feed : List Feed) (ob : OrderBook) : Prop :=
  ∃ rounds told, requests rounds = calls ∧ run round rounds newOrderBook = some (told,ob) ∧ told.flatten = feed

theorem Narrates.snoc (narrates : Narrates calls feed ob) (moved : round ob r = some (told,ob')) :
    Narrates (calls ++ requests [r]) (feed ++ told) ob' := by
  obtain ⟨rounds,before,rfl,result,rfl⟩ := narrates
  refine ⟨rounds ++ [r],before ++ [told],List.filterMap_append,run_append result (run_cons moved rfl),?_⟩
  rw [List.flatten_append,List.flatten_singleton]

/-- The message the loop is about to hand over. -/
def Control.untold : Control → List Feed
  | .announcing trades => [.trade trades]
  | .publishing data => [.depth data]
  | _ => []

theorem nextControl_untold (reply : Reply) :
    (nextControl reply).untold = if reply.list = [] then [] else [.trade reply.list] := by
  cases reply with
  | cancelled found => rfl
  | trades ts => cases ts <;> rfl

def handledCalls (os : List Observation) : List Call := (Log.handled os).map OrderRequest.call

theorem handledCalls_quiet (silent : Log.responses [o] = []) : handledCalls (os ++ [o]) = handledCalls os := by
  rw [handledCalls,Log.handled_quiet silent,handledCalls]

/-- A step of the engine is a round, or tells nothing. -/
theorem narrates_step (linear : Linear os s replies) (moved : Api.step s a = some (o,s'))
    (own : a ≠ .announce ∧ a ≠ .publish) (narrates : Narrates (handledCalls os) (feed ++ s.loop.untold) s.ob) :
    Narrates (handledCalls (os ++ [o])) (feed ++ s'.loop.untold) s'.ob := by
  cases a with
  | announce => exact absurd rfl own.1
  | publish => exact absurd rfl own.2
  | handle =>
    cases loop : s.loop with
    | took req =>
      obtain ⟨reply,ob,result,handled⟩ := linear.progress loop
      obtain ⟨rfl,rfl⟩ := Prod.mk.inj (Option.some.inj (handled.symm.trans moved))
      rw [loop] at narrates
      have next := narrates.snoc (r := .request req.call) (by rw [round,result]; rfl)
      rw [show (Control.took req).untold = [] from rfl,List.append_nil,← nextControl_untold] at next
      rw [handledCalls,Log.handled_answer,List.map_append]
      exact next
    | _ => simp [Api.step,handle,loop] at moved
  | tick =>
    simp only [Api.step,tick] at moved
    split at moved
    · rename_i loop
      rw [loop] at narrates
      split at moved
      · obtain ⟨data,shown,same⟩ := Option.map_eq_some_iff.mp moved
        obtain ⟨rfl,rfl⟩ := Prod.mk.inj same
        have next := narrates.snoc (r := .tick) (by rw [round,shown]; rfl)
        rw [handledCalls_quiet rfl]
        simpa [Control.untold,requests] using next
      · obtain ⟨rfl,rfl⟩ := Prod.mk.inj (Option.some.inj moved)
        rw [handledCalls_quiet rfl,loop]
        exact narrates
    · simp at moved
  | submit c =>
    simp only [Api.step,submit] at moved
    split at moved
    · split at moved
      · obtain ⟨rfl,rfl⟩ := Prod.mk.inj (Option.some.inj moved)
        rw [handledCalls_quiet rfl]
        exact narrates
      · simp at moved
    · obtain ⟨rfl,rfl⟩ := Prod.mk.inj (Option.some.inj moved)
      rw [handledCalls_quiet rfl]
      exact narrates
  | dequeue =>
    simp only [Api.step,dequeue] at moved
    split at moved
    · rename_i loop _
      obtain ⟨rfl,rfl⟩ := Prod.mk.inj (Option.some.inj moved)
      rw [loop] at narrates
      rw [handledCalls_quiet rfl]
      exact narrates
    · simp at moved
  | receive channel =>
    obtain ⟨resp,_,same⟩ := Option.map_eq_some_iff.mp moved
    obtain ⟨rfl,rfl⟩ := Prod.mk.inj same
    rw [handledCalls_quiet rfl]
    exact narrates
  | getOrderBook =>
    obtain ⟨rfl,rfl⟩ := Prod.mk.inj (Option.some.inj moved)
    rw [handledCalls_quiet rfl]
    exact narrates

/-- Only the branch that takes a broadcast handles one. -/
theorem clientStep_silent (roster : Websocket.Roster es h) (a : Websocket.ClientAction)
    (result : Websocket.clientStep h a = some (e,h')) : Fanout.handled [e] = [] := by
  cases a with
  | serveWs c =>
    obtain ⟨_,rfl,_⟩ := Websocket.serveWs_eq result
    rfl
  | register c =>
    obtain ⟨_,_,_,rfl,_⟩ := Websocket.register_eq roster result
    rfl
  | readError c =>
    obtain ⟨_,rfl,_⟩ := Websocket.readError_eq result
    rfl
  | unregister c =>
    obtain ⟨_,leaving,same⟩ := Websocket.unregister_eq result
    rw [Websocket.remove_eq (roster.restage (.inr leaving) (.inr rfl))] at same
    split at same <;> · obtain ⟨rfl,_⟩ := Prod.mk.inj same; rfl
  | write c fails =>
    rcases Websocket.write_eq result with ⟨_,_,_,rfl,_⟩ | ⟨rfl,_⟩ <;> rfl

theorem hub_backlog {h h' : Hub} (invariant : HubInvariant es h.toHub) (own : ∀ message, a ≠ .broadcast message)
    (result : h.step a = some (e,h')) : Fanout.handled [e] ++ h'.broadcast = h.broadcast := by
  cases a with
  | broadcast message => exact absurd rfl (own message)
  | client a =>
    obtain ⟨⟨e',hub⟩,known,same⟩ := Option.map_eq_some_iff.mp result
    obtain ⟨rfl,rfl⟩ := Prod.mk.inj same
    rw [clientStep_silent invariant.roster a known,List.nil_append]
  | take =>
    simp only [Hub.step] at result
    split at result
    · rename_i message rest held
      obtain ⟨⟨e',hub⟩,known,same⟩ := Option.map_eq_some_iff.mp result
      obtain ⟨rfl,rfl⟩ := Prod.mk.inj same
      obtain ⟨_,rfl,_⟩ := Websocket.take_eq known
      exact held.symm
    · simp at result
  | offer c =>
    obtain ⟨⟨e',hub⟩,known,same⟩ := Option.map_eq_some_iff.mp result
    obtain ⟨rfl,rfl⟩ := Prod.mk.inj same
    obtain ⟨message,pending,sending,offered⟩ := offer_ready known
    rw [offer_eq invariant.roster sending offered] at known
    have event := congrArg Prod.fst (Option.some.inj known)
    split at event <;> · simp only at event; rw [← event]; rfl
  | finish =>
    obtain ⟨⟨e',hub⟩,known,same⟩ := Option.map_eq_some_iff.mp result
    obtain ⟨rfl,rfl⟩ := Prod.mk.inj same
    obtain ⟨_,rfl,_⟩ := Websocket.finish_eq known
    rfl

theorem engineLog_append (es es' : List MarketEvent) : engineLog (es ++ es') = engineLog es ++ engineLog es' :=
  List.filterMap_append

theorem hubLog_append (es es' : List MarketEvent) : hubLog (es ++ es') = hubLog es ++ hubLog es' := List.filterMap_append

theorem published_append (es es' : List MarketEvent) : published (es ++ es') = published es ++ published es' :=
  List.filterMap_append

/-- The engine and the hub keep what they keep alone, and between them nothing is lost. -/
structure MarketInvariant (es : List MarketEvent) (m : Market) : Prop where
  engine : Invariant (engineLog es) m.server
  hub : HubInvariant (hubLog es) m.hub.toHub
  text : ∀ req ∈ Log.submitted (engineLog es), req.IsText
  narrated : Narrates (handledCalls (engineLog es)) (published es ++ m.server.loop.untold) m.server.ob
  passed : Fanout.handled (hubLog es) ++ m.hub.broadcast = (published es).map broadcastEvent

theorem new_market : MarketInvariant [] newMarket :=
  ⟨⟨⟨[],new_linear⟩,0,new_cached⟩,⟨Websocket.new_roster,Websocket.new_delivery _⟩,by simp [engineLog,Log.submitted],
    ⟨[],[],rfl,rfl,rfl⟩,rfl⟩

/-- Handing a message over empties the loop's hands and fills the hub's channel. -/
theorem MarketInvariant.told (invariant : MarketInvariant es m) (holds : m.server.loop.untold = [f])
    (engine : Invariant (engineLog (es ++ [.told f])) server) (calls : Log.responses (engineLog [.told f]) = [])
    (entered : Log.submitted (engineLog [.told f]) = []) (done : server.loop.untold = []) (book : server.ob = m.server.ob)
    (room : m.hub.broadcast.length < 4096) : MarketInvariant (es ++ [.told f])
      ⟨server,{ m.hub with broadcast := m.hub.broadcast ++ [broadcastEvent f] }⟩ := by
  have hub : m.hub.step (.broadcast (broadcastEvent f)) =
      some (.quiet,{ m.hub with broadcast := m.hub.broadcast ++ [broadcastEvent f] }) := if_pos room
  refine ⟨engine,?_,?_,?_,?_⟩
  · rw [hubLog_append]
    exact hub_step_invariant invariant.hub _ hub
  · rw [engineLog_append,Log.submitted_append,entered,List.append_nil]
    exact invariant.text
  · have narrated := invariant.narrated
    rw [holds] at narrated
    rw [engineLog_append,published_append,done,List.append_nil,book]
    rw [handledCalls,Log.handled,Log.responses_append,calls,List.append_nil]
    exact narrated
  · rw [hubLog_append,published_append,Fanout.handled_append,List.map_append,← invariant.passed]
    simp [hubLog,published,Fanout.handled]

theorem market_step (invariant : MarketInvariant es m) (moved : Moves m e m') : MarketInvariant (es ++ [e]) m' := by
  cases moved with
  | refuse =>
    rename_i error
    have same : engineLog (es ++ [.refused error]) = engineLog es := (engineLog_append _ _).trans (List.append_nil _)
    have same' : hubLog (es ++ [.refused error]) = hubLog es := (hubLog_append _ _).trans (List.append_nil _)
    have same'' : published (es ++ [.refused error]) = published es := (published_append _ _).trans (List.append_nil _)
    constructor
    all_goals simp only [same,same',same'']
    · exact invariant.engine
    · exact invariant.hub
    · exact invariant.text
    · exact invariant.narrated
    · exact invariant.passed
  | engine own text moved =>
    rename_i a o server
    have log : engineLog (es ++ [.engine o]) = engineLog es ++ [o] := engineLog_append _ _
    have same : hubLog (es ++ [.engine o]) = hubLog es := (hubLog_append _ _).trans (List.append_nil _)
    have same' : published (es ++ [.engine o]) = published es := (published_append _ _).trans (List.append_nil _)
    obtain ⟨⟨replies,linear⟩,_⟩ := invariant.engine
    constructor
    all_goals simp only [log,same,same']
    · exact invariant_step invariant.engine moved
    · exact invariant.hub
    · intro req member
      rw [Log.submitted_append] at member
      exact (List.mem_append.mp member).elim (invariant.text req) (text req)
    · exact narrates_step linear moved own invariant.narrated
    · exact invariant.passed
  | announce loop room =>
    rename_i trades
    refine invariant.told (by rw [loop]; rfl) ?_ rfl rfl rfl rfl room
    rw [engineLog_append]
    have moved : Api.step m.server .announce = some (.trade trades,{ m.server with loop := .waiting }) := by
      simp only [Api.step,announce,loop]
    exact invariant_step invariant.engine moved
  | publish loop room =>
    rename_i data
    refine invariant.told (by rw [loop]; rfl) ?_ rfl rfl rfl rfl room
    rw [engineLog_append]
    have moved : Api.step m.server .publish =
      some (.depth data,{ m.server with bookChanged := false, loop := .waiting }) := by
      simp only [Api.step,publish,loop]
    exact invariant_step invariant.engine moved
  | hub own moved =>
    rename_i a e hub
    have log : hubLog (es ++ [.hub e]) = hubLog es ++ [e] := hubLog_append _ _
    have same : engineLog (es ++ [.hub e]) = engineLog es := (engineLog_append _ _).trans (List.append_nil _)
    have same' : published (es ++ [.hub e]) = published es := (published_append _ _).trans (List.append_nil _)
    constructor
    all_goals simp only [log,same,same']
    · exact invariant.engine
    · exact hub_step_invariant invariant.hub a moved
    · exact invariant.text
    · exact invariant.narrated
    · rw [Fanout.handled_append,List.append_assoc,hub_backlog invariant.hub own moved]
      exact invariant.passed

theorem market_run (result : run Market.step actions newMarket = some (es,m)) : MarketInvariant es m := by
  have invariant := run_preserves MarketInvariant
    (fun _ _ _ _ _ before moved => market_step before (Market.step_moves moved))
    actions [] new_market result
  simpa using invariant

theorem HubInvariant.gapless (invariant : HubInvariant es h) (c : Websocket.ClientRef) : Fanout.Gapless 256 c es := by
  by_cases joined : Fanout.Event.joined c ∈ es
  · by_cases served : c ∈ h.clients
    · exact .inr (.inl ⟨_,invariant.delivery.serves c served id⟩)
    · exact .inr (.inr (invariant.delivery.ends c joined fun member => absurd member served))
  · exact .inl ⟨joined,invariant.roster.unknown joined⟩

/-- What goes out to a client is one stretch of the broadcasts. -/
theorem HubInvariant.sent (invariant : HubInvariant es h) (c : Websocket.ClientRef) :
    Fanout.drainedBy c es <:+: Fanout.handled es := by
  have given := (invariant.gapless c).contiguous
  rw [(invariant.roster.account c).flow] at given
  exact (List.prefix_append _ _).isInfix.trans given

/-- The IDs in the trades are IDs of orders. -/
theorem traded_text (result : runCalls calls = some (replies,ob)) (text : ∀ a, .process a ∈ calls → IsText a.id)
    (traded : t ∈ replies.flatMap Reply.list) : IsText t.makerOrderID ∧ IsText t.takerOrderID := by
  obtain ⟨_,_,B,known,_,booked,trades⟩ := runCalls_booked calls
  obtain ⟨rfl,rfl⟩ := outcome_unique result known
  have named r (bound : r < ob.heap.orderCount) : IsText (ob.heap.order r).id := by
    rcases new_sound.origin_run result bound with ⟨old,_⟩ | ⟨a,member,same⟩
    · exact absurd old (Nat.not_lt_zero r)
    · have id : (ob.heap.order r).id = a.id := congrArg OrderArgs.id same
      rw [id]
      exact text a member
  rw [← trades] at traded
  obtain ⟨f,member,rfl⟩ := List.mem_map.mp traded
  exact ⟨named _ (booked.known f member).1,named _ (booked.known f member).2⟩

theorem round_trades (result : run round rounds ob = some (told,ob')) :
    ∃ replies, run call (requests rounds) ob = some (replies,ob') ∧
      ∀ trades, .trade trades ∈ told.flatten → ∀ t ∈ trades, t ∈ replies.flatMap Reply.list := by
  induction rounds generalizing ob told with
  | nil =>
    obtain ⟨rfl,rfl⟩ := Prod.mk.inj (Option.some.inj result)
    exact ⟨[],rfl,by simp⟩
  | cons r rounds ih =>
    obtain ⟨now,later,ob1,first,rest,rfl⟩ := run_cons_inv result
    obtain ⟨replies,known,inside⟩ := ih rest
    cases r with
    | request c =>
      obtain ⟨⟨reply,ob2⟩,called,same⟩ := Option.map_eq_some_iff.mp first
      obtain ⟨rfl,rfl⟩ := Prod.mk.inj same
      refine ⟨reply :: replies,run_cons called known,fun trades member t traded => ?_⟩
      rw [List.flatMap_cons]
      rcases List.mem_append.mp (List.flatten_cons ▸ member) with new | old
      · split at new
        · simp at new
        · rw [Feed.trade.inj (List.mem_singleton.mp new)] at traded
          exact List.mem_append_left _ traded
      · exact List.mem_append_right _ (inside trades old t traded)
    | tick =>
      rw [round] at first
      obtain ⟨data,_,same⟩ := Option.map_eq_some_iff.mp first
      obtain ⟨rfl,rfl⟩ := Prod.mk.inj same
      exact ⟨replies,known,fun trades member => inside trades (by simpa using member)⟩

theorem MarketInvariant.handled_text (invariant : MarketInvariant es m) (a : OrderArgs)
    (handled : .process a ∈ handledCalls (engineLog es)) : IsText a.id := by
  obtain ⟨⟨_,linear⟩,_⟩ := invariant.engine
  obtain ⟨req,answered,same⟩ := List.mem_map.mp handled
  refine invariant.text req ?_ a same
  rw [linear.fifo,linear.pending]
  exact List.mem_append_left _ (List.mem_append_left _ answered)

theorem MarketInvariant.readable (invariant : MarketInvariant es m) (member : f ∈ published es) : f.IsText := by
  obtain ⟨rounds,told,calls,result,feed⟩ := invariant.narrated
  obtain ⟨replies,known,inside⟩ := round_trades result
  rw [calls] at known
  cases f with
  | depth data => trivial
  | trade trades =>
    intro t traded
    refine traded_text known invariant.handled_text (inside trades ?_ t traded)
    rw [feed]
    exact List.mem_append_left _ member

/-- Whatever is posted, whoever listens and however engine, hub and clients interleave: the messages
handed to the hub are those of a loop that is alone with its book and answers the same requests in
the same order, and every client can read what is written to it, a stretch of these messages. -/
theorem market_feed (actions : List MarketAction) (result : run Market.step actions newMarket = some (es,m)) :
    Narrates (handledCalls (engineLog es)) (published es ++ m.server.loop.untold) m.server.ob ∧
      ∀ c, ∃ feed, feed <:+: published es ∧ (Fanout.drainedBy c (hubLog es)).mapM readFeed = some feed := by
  have invariant := market_run result
  refine ⟨invariant.narrated,fun c => ?_⟩
  have sent : Fanout.drainedBy c (hubLog es) <:+: (published es).map broadcastEvent := by
    rw [← invariant.passed]
    exact (invariant.hub.sent c).trans (List.prefix_append _ _).isInfix
  obtain ⟨before,after,split⟩ := sent
  obtain ⟨front,last,whole,rest,_⟩ := List.map_eq_append_iff.mp split.symm
  obtain ⟨first,feed,rfl,_,written⟩ := List.map_eq_append_iff.mp rest
  refine ⟨feed,⟨first,last,whole.symm⟩,?_⟩
  rw [← written,List.mapM_map]
  have readable f (member : f ∈ feed) : (readFeed ∘ broadcastEvent) f = some (id f) :=
    readFeed_broadcast f (invariant.readable (by rw [whole]; simp [member]))
  simpa using mapM_each readable

/-- One client listens while a bot sells and another buys. -/
def marketDay : List MarketAction :=
  [.post (payload soldDraw.order),.client (.serveWs 1),.dequeue,.client (.register 1),.handle,
    .post (payload boughtDraw.order),.dequeue,.handle,.tell,.take,.offer 1,.finish,.tick,.tell,
    .client (.write 1 false),.take,.offer 1,.client (.write 1 false)]

theorem step_post (accepted : handlePlaceOrder body = .ok a) (m : Market) :
    m.step (.post body) = m.engine (.submit (.process a)) := by
  simp only [Market.step,accepted]

/-- The client gets both messages, the trade and the depth after it. -/
theorem marketDay_feed : ∃ es m, run Market.step marketDay newMarket = some (es,m) ∧
    (published es).length = 2 ∧ (Fanout.drainedBy 1 (hubLog es)).length = 2 ∧
    Narrates (handledCalls (engineLog es)) (published es ++ m.server.loop.untold) m.server.ob ∧
      ∀ c, ∃ feed, feed <:+: published es ∧ (Fanout.drainedBy c (hubLog es)).mapM readFeed = some feed := by
  have sold : handlePlaceOrder (payload soldDraw.order) = .ok (drawnOrder soldDraw) :=
    drawn_accepted soldDraw rfl (by decide)
  have bought : handlePlaceOrder (payload boughtDraw.order) = .ok (drawnOrder boughtDraw) :=
    drawn_accepted boughtDraw rfl (by decide)
  have played : (run Market.step marketDay newMarket).map (fun (es,_) =>
      ((published es).length,(Fanout.drainedBy 1 (hubLog es)).length)) = some (2,2) := by
    simp only [marketDay,run,step_post sold,step_post bought]
    decide +kernel
  obtain ⟨⟨es,m⟩,result,lengths⟩ := Option.map_eq_some_iff.mp played
  obtain ⟨two,two'⟩ := Prod.mk.inj lengths
  exact ⟨es,m,result,two,two',market_feed marketDay result⟩

end TradingPlatform.Api
