import TradingPlatform.Server
import Mathlib.Data.List.Forall2

/-! Every interleaving of handlers, loop and ticks answers the requests as one sequential
book would in the order in which they leave the channel, and readers see that book's past. -/
namespace TradingPlatform.Api

open Orderbook Runs

namespace Log

def submitted (os : List Observation) : List OrderRequest :=
  os.filterMap fun | .submitted req => some req | _ => none

def dequeued (os : List Observation) : List OrderRequest :=
  os.filterMap fun | .dequeued req => some req | _ => none

def responses (os : List Observation) : List (OrderRequest × Response) :=
  os.filterMap fun | .responded req resp => some (req,resp) | _ => none

def trades (os : List Observation) : List (List Trade) :=
  os.filterMap fun | .trade trades => some trades | _ => none

def reads (os : List Observation) : List Depth :=
  os.filterMap fun | .returned data => some data | _ => none

/-- What has been received from a result channel. -/
def received (channel : Nat) (os : List Observation) : List Response :=
  os.filterMap fun | .received c resp => if c = channel then some resp else none | _ => none

theorem submitted_append (os os' : List Observation) :
    submitted (os ++ os') = submitted os ++ submitted os' := List.filterMap_append

theorem dequeued_append (os os' : List Observation) :
    dequeued (os ++ os') = dequeued os ++ dequeued os' := List.filterMap_append

theorem responses_append (os os' : List Observation) :
    responses (os ++ os') = responses os ++ responses os' := List.filterMap_append

theorem trades_append (os os' : List Observation) :
    trades (os ++ os') = trades os ++ trades os' := List.filterMap_append

theorem reads_append (os os' : List Observation) :
    reads (os ++ os') = reads os ++ reads os' := List.filterMap_append

theorem received_append (channel : Nat) (os os' : List Observation) :
    received channel (os ++ os') = received channel os ++ received channel os' := List.filterMap_append

theorem mem_received : resp ∈ received channel os ↔ .received channel resp ∈ os := by
  simp only [received,List.mem_filterMap]
  constructor
  · rintro ⟨o,member,shown⟩
    split at shown
    · split at shown
      · rename_i same
        rwa [← Option.some.inj shown,← same]
      · cases shown
    · cases shown
  · exact fun member => ⟨_,member,if_pos rfl⟩

/-- The responses to requests that wait on a channel. -/
def responsesOn (channel : Nat) (os : List Observation) : List Response :=
  (responses os).filterMap fun x => if x.1.result = channel then some x.2 else none

/-- The requests that have been answered. -/
def handled (os : List Observation) : List OrderRequest := (responses os).map Prod.fst

theorem handled_quiet (silent : responses [o] = []) : handled (os ++ [o]) = handled os := by
  rw [handled,responses_append,silent,List.append_nil,handled]

theorem handled_answer (os : List Observation) (req : OrderRequest) (resp : Response) :
    handled (os ++ [.responded req resp]) = handled os ++ [req] := by
  rw [handled,responses_append,List.map_append]
  rfl

end Log

/-- What the engine makes of a reply of the book. -/
def respond : Reply → Response
  | .trades ts => ⟨true,ts,""⟩
  | .cancelled true => ⟨true,[],""⟩
  | .cancelled false => ⟨false,[],"order not found"⟩

def changes : Reply → Bool
  | .trades _ => true
  | .cancelled found => found

def nextControl : Reply → Control
  | .trades ts => if ts.length > 0 then .announcing ts else .waiting
  | .cancelled _ => .waiting

/-- The loop's book after a round, whatever the branch. -/
def Server.answer (s : Server) (req : OrderRequest) (reply : Reply) (ob : OrderBook) : Server :=
  { s with
    ob := ob
    results := Function.update s.results req.result (some (respond reply))
    bookChanged := s.bookChanged || changes reply
    loop := nextControl reply }

/-- Both branches of a round, as one call on the book. -/
theorem handle_eq (took : s.loop = .took req) :
    handle s = (call s.ob req.call).bind fun (reply,ob) =>
      match s.results req.result with
      | none => some (.responded req (respond reply),s.answer req reply ob)
      | some _ => none := by
  obtain ⟨c,result⟩ := req
  cases c with
  | process a =>
    simp only [handle,took,call]
    cases place s.ob a with
    | none => rfl
    | some pair =>
      cases room : s.results result <;> simp [send,room,Server.answer,respond,changes,nextControl]
  | cancel id =>
    simp only [handle,took,call]
    cases found : (cancel s.ob id).1 <;> cases room : s.results result <;>
      simp [send,room,Server.answer,respond,changes,nextControl]

/-- A call after which the flag is not raised has not touched the book. -/
theorem call_unchanged (result : call ob c = some (reply,ob')) (quiet : changes reply = false) : ob' = ob := by
  cases c with
  | process a =>
    obtain ⟨pair,_,same⟩ := Option.map_eq_some_iff.mp result
    obtain ⟨rfl,_⟩ := Prod.mk.inj same
    simp [changes] at quiet
  | cancel id =>
    obtain ⟨rfl,rfl⟩ := Prod.mk.inj (Option.some.inj result)
    simp only [changes,cancel] at quiet ⊢
    split at quiet
    · rfl
    · split at quiet
      · rfl
      · split at quiet
        · split at quiet <;> simp at quiet
        · simp at quiet

def Control.pending : Control → List OrderRequest
  | .took req => [req]
  | _ => []

def Control.unannounced : Control → List Trade
  | .announcing trades => trades
  | _ => []

/-- What a result channel has been given so far: what was received from it, and what it holds. -/
def arrived (os : List Observation) (s : Server) (channel : Nat) : List Response :=
  Log.received channel os ++ (s.results channel).toList

/-- Every response comes after its request has left the channel. -/
def Ordered (os : List Observation) : Prop :=
  ∀ front req resp back, os = front ++ .responded req resp :: back → req ∈ Log.dequeued front

theorem Ordered.snoc (ordered : Ordered os)
    (last : ∀ req resp, o = .responded req resp → req ∈ Log.dequeued os) : Ordered (os ++ [o]) := by
  intro front req resp back split
  rcases List.eq_nil_or_concat back with rfl | ⟨back',b,rfl⟩
  · obtain ⟨rfl,same⟩ := List.append_inj' split rfl
    exact last req resp (List.cons.inj same).1
  · have split' : os ++ [o] = (front ++ .responded req resp :: back') ++ [b] := by simpa using split
    exact ordered front req resp back' (List.append_inj' split' rfl).1

/-- The channel, the loop and the book against the log. -/
structure Linear (os : List Observation) (s : Server) (replies : List Reply) : Prop where
  fifo : Log.submitted os = Log.dequeued os ++ s.inputChan
  channels : (Log.submitted os).map OrderRequest.result = List.range s.issued
  pending : Log.dequeued os = Log.handled os ++ s.loop.pending
  sequential : runCalls ((Log.handled os).map OrderRequest.call) = some (replies,s.ob)
  answers : (Log.responses os).map Prod.snd = replies.map respond
  trades : (Log.trades os).flatten ++ s.loop.unannounced = replies.flatMap Reply.list
  arrivals : ∀ channel, arrived os s channel = Log.responsesOn channel os
  ordered : Ordered os

theorem new_linear : Linear [] newServer [] := by
  refine ⟨rfl,rfl,rfl,rfl,rfl,rfl,fun _ => rfl,?_⟩
  intro front req resp back split
  simp at split

theorem Linear.delivered (linear : Linear os s replies) (member : resp ∈ arrived os s channel) :
    ∃ req, (req,resp) ∈ Log.responses os ∧ req.result = channel := by
  rw [linear.arrivals] at member
  obtain ⟨⟨req,resp'⟩,answered,own⟩ := List.mem_filterMap.mp member
  split at own
  · rename_i same
    obtain rfl := Option.some.inj own
    exact ⟨req,answered,same⟩
  · cases own

theorem Linear.distinct (linear : Linear os s replies) :
    ((Log.handled os ++ s.loop.pending).map OrderRequest.result).Nodup := by
  have all : ((Log.dequeued os ++ s.inputChan).map OrderRequest.result).Nodup := by
    rw [← linear.fifo,linear.channels]
    exact List.nodup_range
  rw [List.map_append,linear.pending] at all
  exact (List.nodup_append.mp all).1

/-- The loop never waits for room on a result channel. -/
theorem Linear.room (linear : Linear os s replies) (took : s.loop = .took req) :
    s.results req.result = none := by
  cases held : s.results req.result with
  | none => rfl
  | some resp =>
    obtain ⟨other,answered,same⟩ := linear.delivered (show resp ∈ arrived os s req.result by simp [arrived,held])
    have distinct := linear.distinct
    rw [took,List.map_append,List.nodup_append] at distinct
    have member : other ∈ Log.handled os := List.mem_map_of_mem answered
    refine absurd same (distinct.2.2 _ (List.mem_map_of_mem member) _ ?_)
    simp [Control.pending]

theorem Linear.sound (linear : Linear os s replies) : ∃ B, Sound s.ob B := by
  obtain ⟨_,_,B,result,sound⟩ := runCalls_sound ((Log.handled os).map OrderRequest.call)
  obtain ⟨_,rfl⟩ := outcome_unique linear.sequential result
  exact ⟨B,sound⟩

/-- A request that has been taken is always answered. -/
theorem Linear.progress (linear : Linear os s replies) (took : s.loop = .took req) :
    ∃ reply ob, call s.ob req.call = some (reply,ob) ∧
      handle s = some (.responded req (respond reply),s.answer req reply ob) := by
  obtain ⟨B,sound⟩ := linear.sound
  obtain ⟨ob,result,_⟩ := sound.call req.call
  refine ⟨_,ob,result,?_⟩
  rw [handle_eq took,result,Option.bind_some,linear.room took]

theorem runCalls_snoc (before : runCalls calls = some (replies,ob)) (last : call ob c = some (reply,ob')) :
    runCalls (calls ++ [c]) = some (replies ++ [reply],ob') :=
  run_append before (run_cons last rfl)

theorem nextControl_unannounced (reply : Reply) : (nextControl reply).unannounced = reply.list := by
  cases reply with
  | cancelled found => rfl
  | trades ts =>
    cases ts with
    | nil => rfl
    | cons t ts => rfl

theorem nextControl_pending (reply : Reply) : (nextControl reply).pending = [] := by
  cases reply with
  | cancelled found => rfl
  | trades ts =>
    simp only [nextControl]
    split <;> rfl

theorem Linear.answer (linear : Linear os s replies) (took : s.loop = .took req)
    (result : call s.ob req.call = some (reply,ob)) :
    Linear (os ++ [.responded req (respond reply)]) (s.answer req reply ob) (replies ++ [reply]) := by
  have responses : Log.responses (os ++ [.responded req (respond reply)]) =
      Log.responses os ++ [(req,respond reply)] := Log.responses_append _ _
  have handled := Log.handled_answer os req (respond reply)
  have dequeued : Log.dequeued (os ++ [.responded req (respond reply)]) = Log.dequeued os :=
    (Log.dequeued_append _ _).trans (List.append_nil _)
  have submitted : Log.submitted (os ++ [.responded req (respond reply)]) = Log.submitted os :=
    (Log.submitted_append _ _).trans (List.append_nil _)
  have announced : Log.trades (os ++ [.responded req (respond reply)]) = Log.trades os :=
    (Log.trades_append _ _).trans (List.append_nil _)
  have received (channel : Nat) :
    Log.received channel (os ++ [.responded req (respond reply)]) = Log.received channel os :=
    (Log.received_append _ _ _).trans (List.append_nil _)
  have pending := linear.pending
  have trades := linear.trades
  rw [took] at pending trades
  refine ⟨?_,?_,?_,?_,?_,?_,?_,?_⟩
  · rw [submitted,dequeued]
    exact linear.fifo
  · rw [submitted]
    exact linear.channels
  · rw [dequeued,handled,Server.answer,nextControl_pending,List.append_nil]
    exact pending
  · rw [handled,List.map_append]
    exact runCalls_snoc linear.sequential result
  · rw [responses,List.map_append,List.map_append,linear.answers]
    rfl
  · rw [announced,List.flatMap_append,← trades,Server.answer,nextControl_unannounced]
    simp [Control.unannounced]
  · intro channel
    have before := linear.arrivals channel
    simp only [arrived,Log.responsesOn] at before ⊢
    rw [received,responses,List.filterMap_append,← before]
    by_cases own : channel = req.result
    · subst own
      simp [Server.answer,linear.room took]
    · simp [Server.answer,Function.update_of_ne own,Ne.symm own]
  · refine linear.ordered.snoc fun req' resp same => ?_
    obtain ⟨rfl,_⟩ := Observation.responded.inj same
    rw [pending]
    simp [Control.pending]

/-- Steps that answer nothing: what enters the channel and what leaves it is all that changes. -/
theorem Linear.extend {s' : Server} (linear : Linear os s replies) (responses : Log.responses [o] = [])
    (fifo : s.inputChan ++ Log.submitted [o] = Log.dequeued [o] ++ s'.inputChan)
    (channels : List.range s.issued ++ (Log.submitted [o]).map OrderRequest.result = List.range s'.issued)
    (book : s'.ob = s.ob) (pending : s.loop.pending ++ Log.dequeued [o] = s'.loop.pending)
    (trades : (Log.trades [o]).flatten ++ s'.loop.unannounced = s.loop.unannounced)
    (arrivals : ∀ channel, Log.received channel [o] ++ (s'.results channel).toList = (s.results channel).toList) :
    Linear (os ++ [o]) s' replies := by
  have responses' : Log.responses (os ++ [o]) = Log.responses os := by
    rw [Log.responses_append,responses,List.append_nil]
  have handled' : Log.handled (os ++ [o]) = Log.handled os := Log.handled_quiet responses
  refine ⟨?_,?_,?_,?_,?_,?_,?_,?_⟩
  · rw [Log.submitted_append,Log.dequeued_append,linear.fifo,List.append_assoc,fifo,List.append_assoc]
  · rw [Log.submitted_append,List.map_append,linear.channels,channels]
  · rw [Log.dequeued_append,linear.pending,List.append_assoc,pending,handled']
  · rw [handled',book]
    exact linear.sequential
  · rw [responses']
    exact linear.answers
  · rw [Log.trades_append,List.flatten_append,List.append_assoc,trades]
    exact linear.trades
  · intro channel
    rw [arrived,Log.received_append,List.append_assoc,arrivals,Log.responsesOn,responses']
    exact linear.arrivals channel
  · refine linear.ordered.snoc fun req resp same => ?_
    subst same
    cases responses

/-- The steps of readers, ticks and the hub. -/
theorem Linear.quiet {s' : Server} (linear : Linear os s replies) (responses : Log.responses [o] = [])
    (submitted : Log.submitted [o] = []) (dequeued : Log.dequeued [o] = [])
    (queue : s'.inputChan = s.inputChan) (issued : s'.issued = s.issued) (book : s'.ob = s.ob)
    (pending : s'.loop.pending = s.loop.pending)
    (trades : (Log.trades [o]).flatten ++ s'.loop.unannounced = s.loop.unannounced)
    (arrivals : ∀ channel, Log.received channel [o] ++ (s'.results channel).toList = (s.results channel).toList) :
    Linear (os ++ [o]) s' replies := by
  refine linear.extend responses ?_ ?_ book ?_ trades arrivals
  · rw [submitted,dequeued,queue,List.append_nil,List.nil_append]
  · rw [submitted,issued,List.map_nil,List.append_nil]
  · rw [dequeued,pending,List.append_nil]

/-- GetDepth(50) after the first `n` of these calls. -/
def depthAfter (calls : List Call) (n : Nat) : Option Depth :=
  (runCalls (calls.take n)).bind fun (_,ob) => getDepth ob 50

theorem depthAfter_append (within : n ≤ calls.length) (later : List Call) :
    depthAfter (calls ++ later) n = depthAfter calls n := by
  rw [depthAfter,List.take_append_of_le_length within,depthAfter]

theorem depthAfter_all (result : runCalls calls = some (replies,ob)) :
    depthAfter calls calls.length = getDepth ob 50 := by
  rw [depthAfter,List.take_length,result,Option.bind_some]

/-- Each read shows the book after some number of the calls, and these numbers never go down
and do not pass `n`. -/
def Traces (calls : List Call) (reads : List Depth) (n : Nat) : Prop :=
  ∃ ks : List Nat, List.Forall₂ (fun k data => depthAfter calls k = some data) ks reads ∧
    ks.Pairwise (· ≤ ·) ∧ ∀ k ∈ ks, k ≤ n

theorem Traces.later (traces : Traces calls reads n) (grows : n ≤ n') : Traces calls reads n' := by
  obtain ⟨ks,shown,sorted,below⟩ := traces
  exact ⟨ks,shown,sorted,fun k member => (below k member).trans grows⟩

theorem Traces.append (traces : Traces calls reads n) (within : n ≤ calls.length) (later : List Call) :
    Traces (calls ++ later) reads n := by
  obtain ⟨ks,shown,sorted,below⟩ := traces
  refine ⟨ks,((List.forall₂_and_left ks reads).mpr ⟨below,shown⟩).imp ?_,sorted,below⟩
  rintro k data ⟨small,known⟩
  rw [depthAfter_append (small.trans within)]
  exact known

theorem Traces.read (traces : Traces calls reads n) (shown : depthAfter calls n = some data) :
    Traces calls (reads ++ [data]) n := by
  obtain ⟨ks,shown',sorted,below⟩ := traces
  refine ⟨ks ++ [n],List.rel_append shown' (.cons shown .nil),?_,?_⟩
  · rw [List.pairwise_append]
    exact ⟨sorted,by simp,by simpa using below⟩
  · intro k member
    rcases List.mem_append.mp member with old | new
    · exact below k old
    · exact (List.mem_singleton.mp new).le

/-- The cache against the book: it shows the book after the first `n` handled requests. -/
structure Cached (os : List Observation) (s : Server) (n : Nat) : Prop where
  within : n ≤ (Log.handled os).length
  cache : depthAfter ((Log.handled os).map OrderRequest.call) n = some s.depthCache
  current : s.bookChanged = false → getDepth s.ob 50 = some s.depthCache
  publishing : ∀ data, s.loop = .publishing data → getDepth s.ob 50 = some s.depthCache
  reads : Traces ((Log.handled os).map OrderRequest.call) (Log.reads os) n

theorem new_cached : Cached [] newServer 0 := by
  refine ⟨le_rfl,rfl,fun _ => rfl,?_,⟨[],.nil,.nil,by simp⟩⟩
  intro data publishing
  simp [newServer] at publishing

theorem Cached.quiet {s' : Server} (cached : Cached os s n) (responses : Log.responses [o] = [])
    (reads : Log.reads [o] = []) (book : s'.ob = s.ob) (cache : s'.depthCache = s.depthCache)
    (flag : s'.bookChanged = s.bookChanged)
    (publishing : ∀ data, s'.loop = .publishing data → s.loop = .publishing data) :
    Cached (os ++ [o]) s' n := by
  have handled : Log.handled (os ++ [o]) = Log.handled os := Log.handled_quiet responses
  have reads' : Log.reads (os ++ [o]) = Log.reads os := by
    rw [Log.reads_append,reads,List.append_nil]
  constructor
  · rw [handled]
    exact cached.within
  · rw [handled,cache]
    exact cached.cache
  · rw [flag,book,cache]
    exact cached.current
  · intro data now
    rw [book,cache]
    exact cached.publishing data (publishing data now)
  · rw [handled,reads']
    exact cached.reads

theorem Cached.answer (cached : Cached os s n) (result : call s.ob req.call = some (reply,ob)) :
    Cached (os ++ [.responded req (respond reply)]) (s.answer req reply ob) n := by
  have handled := Log.handled_answer os req (respond reply)
  have reads : Log.reads (os ++ [.responded req (respond reply)]) = Log.reads os :=
    (Log.reads_append _ _).trans (List.append_nil _)
  have within := cached.within
  have within' : n ≤ ((Log.handled os).map OrderRequest.call).length := by simpa using within
  constructor
  · rw [handled,List.length_append]
    omega
  · rw [handled,List.map_append,depthAfter_append within']
    exact cached.cache
  · intro still
    simp only [Server.answer,Bool.or_eq_false_iff] at still ⊢
    rw [call_unchanged result still.2]
    exact cached.current still.1
  · intro data publishing
    cases reply with
    | cancelled found => simp [Server.answer,nextControl] at publishing
    | trades ts =>
      simp only [Server.answer,nextControl] at publishing
      split at publishing <;> simp at publishing
  · rw [handled,List.map_append,reads]
    exact cached.reads.append within' _

/-- A tick takes the cache to the present. -/
theorem Cached.refresh (cached : Cached os s n)
    (sequential : runCalls ((Log.handled os).map OrderRequest.call) = some (replies,s.ob))
    (shown : getDepth s.ob 50 = some data) :
    Cached (os ++ [.ticked]) { s with depthCache := data, loop := .publishing data }
      (Log.handled os).length := by
  have handled : Log.handled (os ++ [.ticked]) = Log.handled os := Log.handled_quiet rfl
  have reads : Log.reads (os ++ [.ticked]) = Log.reads os := (Log.reads_append _ _).trans (List.append_nil _)
  constructor
  · rw [handled]
  · have all := depthAfter_all sequential
    rw [List.length_map] at all
    rw [handled,all]
    exact shown
  · exact fun _ => shown
  · exact fun _ _ => shown
  · rw [handled,reads]
    exact cached.reads.later cached.within

theorem Cached.clear (cached : Cached os s n) (publishing : s.loop = .publishing data) :
    Cached (os ++ [.depth data]) { s with bookChanged := false, loop := .waiting } n := by
  have handled : Log.handled (os ++ [.depth data]) = Log.handled os := Log.handled_quiet rfl
  have reads : Log.reads (os ++ [.depth data]) = Log.reads os := (Log.reads_append _ _).trans (List.append_nil _)
  constructor
  · rw [handled]
    exact cached.within
  · rw [handled]
    exact cached.cache
  · exact fun _ => cached.publishing data publishing
  · intro data' now
    simp at now
  · rw [handled,reads]
    exact cached.reads

theorem Cached.read (cached : Cached os s n) : Cached (os ++ [.returned s.depthCache]) s n := by
  have handled : Log.handled (os ++ [.returned s.depthCache]) = Log.handled os := Log.handled_quiet rfl
  have reads : Log.reads (os ++ [.returned s.depthCache]) = Log.reads os ++ [s.depthCache] :=
    Log.reads_append _ _
  constructor
  · rw [handled]
    exact cached.within
  · rw [handled]
    exact cached.cache
  · exact cached.current
  · exact cached.publishing
  · rw [handled,reads]
    exact cached.reads.read cached.cache

/-- The engine's invariant. -/
def Invariant (os : List Observation) (s : Server) : Prop :=
  (∃ replies, Linear os s replies) ∧ ∃ n, Cached os s n

theorem submit_keeps (invariant : Invariant os s) (moved : submit s c = some (o,s')) : Invariant (os ++ [o]) s' := by
  obtain ⟨⟨replies,linear⟩,n,cached⟩ := invariant
  simp only [submit] at moved
  split at moved
  · split at moved
    · obtain ⟨rfl,rfl⟩ := Prod.mk.inj (Option.some.inj moved)
      refine ⟨⟨replies,linear.extend rfl rfl ?_ rfl (List.append_nil _) rfl fun _ => rfl⟩,n,
        cached.quiet rfl rfl rfl rfl rfl fun _ same => same⟩
      exact List.range_succ.symm
    · cases moved
  · obtain ⟨rfl,rfl⟩ := Prod.mk.inj (Option.some.inj moved)
    exact ⟨⟨replies,linear.quiet rfl rfl rfl rfl rfl rfl rfl rfl fun _ => rfl⟩,n,
      cached.quiet rfl rfl rfl rfl rfl fun _ same => same⟩

theorem dequeue_keeps (invariant : Invariant os s) (moved : dequeue s = some (o,s')) : Invariant (os ++ [o]) s' := by
  obtain ⟨⟨replies,linear⟩,n,cached⟩ := invariant
  simp only [dequeue] at moved
  split at moved
  · rename_i req rest idle queue
    obtain ⟨rfl,rfl⟩ := Prod.mk.inj (Option.some.inj moved)
    refine ⟨⟨replies,linear.extend rfl ?_ (List.append_nil _) rfl ?_ ?_ fun _ => rfl⟩,n,
      cached.quiet rfl rfl rfl rfl rfl (by simp)⟩
    · rw [queue]
      exact List.append_nil _
    · rw [idle]
      rfl
    · rw [idle]
      rfl
  · cases moved

theorem handle_keeps (invariant : Invariant os s) (moved : handle s = some (o,s')) : Invariant (os ++ [o]) s' := by
  obtain ⟨⟨replies,linear⟩,n,cached⟩ := invariant
  cases loop : s.loop with
  | took req =>
    obtain ⟨reply,ob,result,handled⟩ := linear.progress loop
    obtain ⟨rfl,rfl⟩ := Prod.mk.inj (Option.some.inj (handled.symm.trans moved))
    exact ⟨⟨_,linear.answer loop result⟩,n,cached.answer result⟩
  | _ => simp [handle,loop] at moved

theorem announce_keeps (invariant : Invariant os s) (moved : announce s = some (o,s')) : Invariant (os ++ [o]) s' := by
  obtain ⟨⟨replies,linear⟩,n,cached⟩ := invariant
  simp only [announce] at moved
  split at moved
  · rename_i trades loop
    obtain ⟨rfl,rfl⟩ := Prod.mk.inj (Option.some.inj moved)
    refine ⟨⟨replies,linear.quiet rfl rfl rfl rfl rfl rfl ?_ ?_ fun _ => rfl⟩,n,
      cached.quiet rfl rfl rfl rfl rfl (by simp)⟩
    · simp [loop,Control.pending]
    · simp [loop,Control.unannounced,Log.trades]
  · cases moved

theorem tick_keeps (invariant : Invariant os s) (moved : tick s = some (o,s')) : Invariant (os ++ [o]) s' := by
  obtain ⟨⟨replies,linear⟩,n,cached⟩ := invariant
  simp only [tick] at moved
  split at moved
  · rename_i loop
    split at moved
    · obtain ⟨data,shown,same⟩ := Option.map_eq_some_iff.mp moved
      obtain ⟨rfl,rfl⟩ := Prod.mk.inj same
      refine ⟨⟨replies,linear.quiet rfl rfl rfl rfl rfl rfl ?_ ?_ fun _ => rfl⟩,_,
        cached.refresh linear.sequential shown⟩
      · simp [loop,Control.pending]
      · simp [loop,Control.unannounced,Log.trades]
    · obtain ⟨rfl,rfl⟩ := Prod.mk.inj (Option.some.inj moved)
      exact ⟨⟨replies,linear.quiet rfl rfl rfl rfl rfl rfl rfl rfl fun _ => rfl⟩,n,
        cached.quiet rfl rfl rfl rfl rfl fun _ same => same⟩
  · cases moved

theorem publish_keeps (invariant : Invariant os s) (moved : publish s = some (o,s')) : Invariant (os ++ [o]) s' := by
  obtain ⟨⟨replies,linear⟩,n,cached⟩ := invariant
  simp only [publish] at moved
  split at moved
  · rename_i data loop
    obtain ⟨rfl,rfl⟩ := Prod.mk.inj (Option.some.inj moved)
    refine ⟨⟨replies,linear.quiet rfl rfl rfl rfl rfl rfl ?_ ?_ fun _ => rfl⟩,n,cached.clear loop⟩
    · simp [loop,Control.pending]
    · simp [loop,Control.unannounced,Log.trades]
  · cases moved

theorem receive_keeps (invariant : Invariant os s) (moved : receive s channel = some (o,s')) :
    Invariant (os ++ [o]) s' := by
  obtain ⟨⟨replies,linear⟩,n,cached⟩ := invariant
  obtain ⟨resp,held,same⟩ := Option.map_eq_some_iff.mp moved
  obtain ⟨rfl,rfl⟩ := Prod.mk.inj same
  refine ⟨⟨replies,linear.quiet rfl rfl rfl rfl rfl rfl rfl rfl ?_⟩,n,
    cached.quiet rfl rfl rfl rfl rfl fun _ same => same⟩
  intro other
  by_cases own : other = channel
  · simp [own,Log.received,held]
  · simp [Log.received,Function.update_of_ne own,Ne.symm own]

theorem getOrderBook_keeps (invariant : Invariant os s) : Invariant (os ++ [.returned s.depthCache]) s := by
  obtain ⟨⟨replies,linear⟩,n,cached⟩ := invariant
  exact ⟨⟨replies,linear.quiet rfl rfl rfl rfl rfl rfl rfl rfl fun _ => rfl⟩,n,cached.read⟩

theorem invariant_step (invariant : Invariant os s) (moved : step s action = some (o,s')) :
    Invariant (os ++ [o]) s' := by
  cases action with
  | submit c => exact submit_keeps invariant moved
  | dequeue => exact dequeue_keeps invariant moved
  | handle => exact handle_keeps invariant moved
  | announce => exact announce_keeps invariant moved
  | tick => exact tick_keeps invariant moved
  | publish => exact publish_keeps invariant moved
  | receive channel => exact receive_keeps invariant moved
  | getOrderBook =>
    obtain ⟨rfl,rfl⟩ := Prod.mk.inj (Option.some.inj moved)
    exact getOrderBook_keeps invariant

/-- Each request has a channel of its own, so one response is all that its channel ever gets. -/
theorem Linear.answered (linear : Linear os s replies) (member : (req,resp) ∈ Log.responses os) :
    arrived os s req.result = [resp] := by
  have distinct := linear.distinct
  rw [List.map_append,List.nodup_append,Log.handled,List.map_map] at distinct
  rw [linear.arrivals,Log.responsesOn]
  obtain ⟨early,late,split⟩ := List.append_of_mem member
  rw [split,List.map_append,List.map_cons,List.nodup_append] at distinct
  obtain ⟨⟨_,own,apart⟩,_⟩ := distinct
  have before : ∀ x ∈ early, x.1.result ≠ req.result := fun x inside =>
    apart _ (List.mem_map_of_mem inside) _ List.mem_cons_self
  have after : ∀ x ∈ late, x.1.result ≠ req.result := fun x inside same =>
    (List.nodup_cons.mp own).1 (List.mem_map.mpr ⟨x,inside,same⟩)
  have nothing (xs : List (OrderRequest × Response)) (others : ∀ x ∈ xs, x.1.result ≠ req.result) :
      xs.filterMap (fun x => if x.1.result = req.result then some x.2 else none) = [] :=
    List.filterMap_eq_nil_iff.mpr fun x inside => if_neg (others x inside)
  rw [split,List.filterMap_append,nothing early before,List.filterMap_cons,if_pos rfl,nothing late after]
  rfl

/-- Linearisation and coherence in every state that any interleaving reaches. -/
structure Coherent (os : List Observation) (s : Server) : Prop where
  fifo : Log.submitted os = Log.dequeued os ++ s.inputChan
  channels : ((Log.submitted os).map OrderRequest.result).Nodup
  ordered : Ordered os
  handled : Log.dequeued os = Log.handled os ++ s.loop.pending
  answers : ∃ replies, runCalls ((Log.handled os).map OrderRequest.call) = some (replies,s.ob) ∧
    (Log.responses os).map Prod.snd = replies.map respond
  answered : ∀ req resp, (req,resp) ∈ Log.responses os → arrived os s req.result = [resp]
  delivered : ∀ channel, ∀ resp ∈ arrived os s channel, ∃ req, (req,resp) ∈ Log.responses os ∧ req.result = channel
  trades : (Log.trades os).flatten ++ s.loop.unannounced =
    (Log.responses os).flatMap fun (_,resp) => resp.trades
  reads : Traces ((Log.dequeued os).map OrderRequest.call) (Log.reads os) (Log.dequeued os).length
  current : s.bookChanged = false → getDepth s.ob 50 = some s.depthCache
  progress : ∀ req, s.loop = .took req → ∃ resp s', step s .handle = some (.responded req resp,s')

theorem respond_trades (reply : Reply) : (respond reply).trades = reply.list := by
  cases reply with
  | trades ts => rfl
  | cancelled found => cases found <;> rfl

theorem Invariant.coherent (invariant : Invariant os s) : Coherent os s := by
  obtain ⟨⟨replies,linear⟩,n,cached⟩ := invariant
  refine ⟨linear.fifo,?_,linear.ordered,linear.pending,⟨replies,linear.sequential,linear.answers⟩,
    fun _ _ => linear.answered,fun _ _ => linear.delivered,?_,?_,cached.current,?_⟩
  · rw [linear.channels]
    exact List.nodup_range
  · have same : (Log.responses os).flatMap (fun (_,resp) => resp.trades) =
        ((Log.responses os).map Prod.snd).flatMap Response.trades := by
      rw [List.flatMap_map]
    rw [linear.trades,same,linear.answers,List.flatMap_map]
    simp [respond_trades]
  · rw [linear.pending,List.map_append,List.length_append]
    have within : n ≤ ((Log.handled os).map OrderRequest.call).length := by simpa using cached.within
    exact (cached.reads.append within _).later (cached.within.trans (Nat.le_add_right _ _))
  · intro req took
    obtain ⟨reply,ob,_,moved⟩ := linear.progress took
    exact ⟨_,_,moved⟩

theorem run_invariant (result : run step actions newServer = some (os,s)) : Invariant os s := by
  have invariant := run_preserves Invariant (fun _ _ _ _ _ => invariant_step) actions []
    ⟨⟨[],new_linear⟩,0,new_cached⟩ result
  simpa using invariant

/-- Any number of handlers, in any interleaving with the loop, the ticker and the readers. -/
theorem engine_coherent (actions : List Action) (os : List Observation) (s : Server)
    (result : run step actions newServer = some (os,s)) : Coherent os s :=
  Invariant.coherent (run_invariant result)

/-- Two handlers meet in one trade while a reader looks twice. -/
def sampleActions : List Action :=
  [.submit (.process ⟨[1],sell,limitOrder,100,5⟩),.dequeue,.submit (.process ⟨[2],buy,limitOrder,100,3⟩),
    .handle,.getOrderBook,.tick,.publish,.dequeue,.getOrderBook,.handle,.announce,.receive 1,.receive 0,
    .submit (.cancel [1])]

theorem sampleActions_coherent : ∃ os s, run step sampleActions newServer = some (os,s) ∧
    (Log.trades os) = [[⟨[1],[2],100,3⟩]] ∧ Log.reads os = [([],[]),([],[⟨100,5⟩])] ∧ Coherent os s := by
  have logged : (run step sampleActions newServer).map (fun (os,_) => (Log.trades os,Log.reads os)) =
      some ([[⟨[1],[2],100,3⟩]],[([],[]),([],[⟨100,5⟩])]) := by decide
  obtain ⟨⟨os,s⟩,result,seen⟩ := Option.map_eq_some_iff.mp logged
  obtain ⟨trades,reads⟩ := Prod.mk.inj seen
  exact ⟨os,s,result,trades,reads,engine_coherent sampleActions os s result⟩

end TradingPlatform.Api
