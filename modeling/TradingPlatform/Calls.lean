import TradingPlatform.LadderInvariant
import TradingPlatform.Runs

/-! Sequences of `Process` and `Cancel` calls on one book. Every `Process` gets an order
that `NewOrder` has just built; nothing else about the calls is assumed. -/
namespace TradingPlatform.Orderbook

open Runs

/-- The check `handlePlaceOrder` makes on a decoded body. -/
def acceptsPlace (a : OrderArgs) : Bool := decide (a.id ≠ []) && decide (a.quantity ≠ 0)

inductive Call where
  | process (args : OrderArgs)
  | cancel (orderID : GoString)
  deriving DecidableEq

inductive Reply where
  | trades (list : List Trade)
  | cancelled (found : Bool)
  deriving DecidableEq

def Call.id : Call → GoString
  | .process a => a.id
  | .cancel id => id

def Reply.list : Reply → List Trade
  | .trades ts => ts
  | .cancelled _ => []

def call (ob : OrderBook) : Call → Option (Reply × OrderBook)
  | .process a => (place ob a).map fun (ts,ob') => (.trades ts,ob')
  | .cancel id => some (.cancelled (cancel ob id).1,(cancel ob id).2)

/-- All replies and the final book, from an empty book. -/
def runCalls (calls : List Call) : Option (List Reply × OrderBook) := run call calls newOrderBook

def Ladder.call (B : Ladder) : Call → Reply × Ladder
  | .process a => (.trades ((B.place a).1.map (Execution.trade a.id)),(B.place a).2)
  | .cancel id => (.cancelled (B.cancel id).1,(B.cancel id).2)

/-- A book together with the valid ladder it stands for. -/
structure Sound (ob : OrderBook) (B : Ladder) : Prop where
  models : Models ob B
  valid : B.Valid

theorem new_sound : Sound newOrderBook Ladder.empty := ⟨new_models,empty_valid⟩

/-- The fills a call logs. -/
def Ladder.fills (B : Ladder) : Call → List Fill
  | .process a => (B.place a).1.map (Execution.fill B.orderCount)
  | .cancel _ => []

/-- The heap a call starts from, with the order `NewOrder` builds for it. -/
def grown (h : Heap) : Call → Heap
  | .process a => (newOrder h a).2
  | .cancel _ => h

theorem Sound.step (sound : Sound ob B) (c : Call) :
    ∃ ob', Orderbook.call ob c = some ((B.call c).1,ob') ∧ Sound ob' (B.call c).2 ∧
      Effect (B.fills c) (grown ob.heap c) ob'.heap := by
  cases c with
  | process a =>
    obtain ⟨ob',result,models,effect⟩ := place_models sound.models sound.valid.sorted a
    exact ⟨ob',by simp [Orderbook.call,result,Ladder.call],⟨models,sound.valid.place a⟩,effect⟩
  | cancel id' =>
    obtain ⟨ob',result,models,effect⟩ := cancel_models sound.models sound.valid.sorted sound.valid.live id'
    exact ⟨ob',by simp [Orderbook.call,result,Ladder.call],
      ⟨models,sound.valid.cancel sound.models.rep.orderRefs id'⟩,effect⟩

theorem Sound.call (sound : Sound ob B) (c : Call) :
    ∃ ob', Orderbook.call ob c = some ((B.call c).1,ob') ∧ Sound ob' (B.call c).2 := by
  obtain ⟨ob',result,after,_⟩ := sound.step c
  exact ⟨ob',result,after⟩

theorem Sound.attached (sound : Sound ob B) : ob.bids ++ ob.asks = (B.bids ++ B.asks).map Level.ref := by
  rw [sound.models.bids,sound.models.asks,List.map_append]

theorem runCalls_sound (calls : List Call) :
    ∃ replies ob B, runCalls calls = some (replies,ob) ∧ Sound ob B := by
  obtain ⟨replies,ob,result,B,sound⟩ := run_total (fun ob => ∃ B, Sound ob B)
    (fun ob c holds => by
      obtain ⟨B,sound⟩ := holds
      obtain ⟨ob',first,after⟩ := sound.call c
      exact ⟨_,ob',first,_,after⟩)
    calls ⟨Ladder.empty,new_sound⟩
  exact ⟨replies,ob,B,result,sound⟩

/-- A run can be taken up again in the middle. -/
theorem runCalls_resume (before : runCalls front = some (replies,ob))
    (result : runCalls (front ++ rest) = some (all,ob')) :
    ∃ B later, Sound ob B ∧ run Orderbook.call rest ob = some (later,ob') := by
  obtain ⟨_,_,B,again,sound⟩ := runCalls_sound front
  obtain ⟨_,rfl⟩ := outcome_unique before again
  obtain ⟨_,later,_,first,second,_⟩ := run_append_inv result
  obtain ⟨_,rfl⟩ := outcome_unique before first
  exact ⟨B,later,sound,second⟩

/-- Following `next` from an order reaches exactly these orders and then ends. -/
def Chain (h : Heap) : Option OrderRef → List OrderRef → Prop
  | p, [] => p = none
  | p, r :: rs => p = some r ∧ Chain h (h.order r).next rs

def QueueOf (h : Heap) (l : LimitRef) (queue : List OrderRef) : Prop := Chain h (h.limit l).head queue

theorem chain_of_linked (links : LinkedQueue.Linked (fun r => (h.order r).next) prev before refs) :
    Chain h refs.head? refs := by
  induction refs generalizing before with
  | nil => rfl
  | cons r refs ih =>
    obtain ⟨_,next,rest⟩ := links
    have forward : (h.order r).next = refs.head? := next
    refine ⟨rfl,?_⟩
    rw [forward]
    exact ih rest

theorem LevelRep.queueOf (rep : LevelRep h L) : QueueOf h L.ref L.refs := by
  rw [QueueOf,rep.head]
  exact chain_of_linked rep.links

/-- Strictly sorted, uncrossed, and made of levels with live orders of the level's price only. -/
structure WellOrdered (ob : OrderBook) : Prop where
  bids : ob.bids.Pairwise fun l m => (ob.heap.limit m).price < (ob.heap.limit l).price
  asks : ob.asks.Pairwise fun l m => (ob.heap.limit l).price < (ob.heap.limit m).price
  levels : ∀ l ∈ ob.bids ++ ob.asks, ∃ queue, QueueOf ob.heap l queue ∧ queue ≠ [] ∧
    ∀ r ∈ queue, (ob.heap.order r).price = (ob.heap.limit l).price ∧ 0 < (ob.heap.order r).remainingQty
  uncrossed : ∀ l ∈ ob.bids, ∀ m ∈ ob.asks, (ob.heap.limit l).price < (ob.heap.limit m).price

theorem Sound.wellOrdered (sound : Sound ob B) : WellOrdered ob := by
  obtain ⟨models,valid⟩ := sound
  have bid : ∀ L ∈ B.bids, L ∈ B.levels := fun L member => by simp [Ladder.levels,member]
  have ask : ∀ L ∈ B.asks, L ∈ B.levels := fun L member => by simp [Ladder.levels,member]
  have price : ∀ L ∈ B.levels, (ob.heap.limit L.ref).price = L.price :=
    fun L member => (models.rep.level L member).price
  refine ⟨?_,?_,?_,?_⟩
  · rw [models.bids,List.pairwise_map]
    refine valid.sorted.1.imp_of_mem fun {L M} first second before => ?_
    rw [price L (bid L first),price M (bid M second)]
    simpa [precedes] using before
  · rw [models.asks,List.pairwise_map]
    refine valid.sorted.2.imp_of_mem fun {L M} first second before => ?_
    rw [price L (ask L first),price M (ask M second)]
    simpa [precedes] using before
  · intro l member
    rw [Sound.attached ⟨models,valid⟩] at member
    obtain ⟨L,attached,rfl⟩ := List.mem_map.mp member
    have level : L ∈ B.levels := (List.mem_append.mp attached).elim (bid L) (ask L)
    have rep := models.rep.level L level
    refine ⟨L.refs,rep.queueOf,by simpa [Level.refs] using valid.nonempty L attached,fun r queued => ?_⟩
    obtain ⟨e,entry,rfl⟩ := List.mem_map.mp queued
    obtain ⟨same,left⟩ := valid.entries L level e entry
    rw [(rep.entries e entry).price,(rep.entries e entry).remaining,rep.price]
    exact ⟨same,UInt64.pos_iff_ne_zero.mpr left⟩
  · intro l first m second
    rw [models.bids] at first
    rw [models.asks] at second
    obtain ⟨L,lower,rfl⟩ := List.mem_map.mp first
    obtain ⟨M,upper,rfl⟩ := List.mem_map.mp second
    rw [price L (bid L lower),price M (ask M upper)]
    exact valid.uncrossed L lower M upper

/-- No sequence of calls panics, fails to end, or leaves a crossed, unsorted or empty level. -/
theorem runCalls_wellOrdered (calls : List Call) :
    ∃ replies ob, runCalls calls = some (replies,ob) ∧ WellOrdered ob := by
  obtain ⟨replies,ob,B,result,sound⟩ := runCalls_sound calls
  exact ⟨replies,ob,result,sound.wellOrdered⟩

end TradingPlatform.Orderbook
