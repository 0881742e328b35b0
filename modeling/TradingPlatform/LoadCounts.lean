import TradingPlatform.LoadGenerator
import Mathlib.Algebra.BigOperators.Group.List.Basic
import Mathlib.Algebra.Ring.Int.Defs
import Mathlib.Data.List.Count
import Mathlib.Data.List.Induction

/-! The load generator counts every request once. `Control` is the order of its shutdown, which
keeps every send before the close and every count before the summary; `Flow` follows requests
and metrics from the call to the tally. -/
namespace TradingPlatform.Loadgen

open Fanout Runs

variable {o : Orchestrator} {s s' : State} {e : Event} {es : List Event}

def Bot.running : Bot → Bool
  | .finished => false
  | _ => true

/-- After `wg.Wait`. -/
def Stage.joined : Stage → Bool
  | .spawning | .waiting => false
  | _ => true

/-- After the close. -/
def Stage.closed : Stage → Bool
  | .awaiting | .printed => true
  | _ => false

/-- The order of the shutdown: the wait group counts the bots that have not returned, the
channel is closed only after all have, and `Run` prints only after the channel is empty. -/
structure Control (s : State) : Prop where
  waitGroup : s.wg = s.bots.countP Bot.running
  joined : s.stage.joined = true → s.wg = 0
  closed : s.metricsChan.closed = s.stage.closed
  launched : s.collector = .unstarted ↔ s.stage = .spawning
  drained : s.collector = .ended → s.metricsChan.closed = true ∧ s.metricsChan.buffer = []
  ended : s.stage = .printed → s.collector = .ended

/-- A bot that goes on without returning. -/
theorem Control.swap (control : Control s) (new : Bot) (place : s.bots = pre ++ old :: post)
    (same : old.running = new.running) :
    Control { s with bots := pre ++ new :: post } := by
  refine ⟨?_,control.joined,control.closed,control.launched,control.drained,control.ended⟩
  rw [control.waitGroup,place]
  simp only [List.countP_append,List.countP_cons,same]

/-- The collector gets a metric. -/
theorem Control.collect (control : Control s) (ranging : s.collector = .ranging) (m : LatencyMetric) :
    Control { s with collector := .counting m } := by
  have launched : s.stage ≠ .spawning := by simp [← control.launched,ranging]
  have printed : s.stage ≠ .printed := by
    intro printed
    simp [control.ended printed] at ranging
  exact ⟨control.waitGroup,control.joined,control.closed,by simp [launched],by simp,fun now => absurd now printed⟩

theorem Control.crash (control : Control s) (why : Panic) : Control (s.panic why).2 :=
  ⟨control.waitGroup,control.joined,control.closed,control.launched,control.drained,control.ended⟩

theorem Control.step (control : Control s) (moves : Moves o s e s') : Control s' := by
  cases moves with
  | spawned spawning =>
    refine ⟨?_,?_,control.closed,control.launched,control.drained,control.ended⟩
    · simp [control.waitGroup,Bot.running]
    · simp [spawning,Stage.joined]
  | launched spawning =>
    have opened := control.closed
    rw [spawning] at opened
    exact ⟨control.waitGroup,by simp [Stage.joined],opened,by simp,by simp,by simp⟩
  | noTicker | overdone | burnt | reclosed => exact control.crash _
  | started pre post place => exact control.swap _ place rfl
  | expired => exact ⟨control.waitGroup,control.joined,control.closed,control.launched,control.drained,control.ended⟩
  | left pre post wg place some =>
    have count := control.waitGroup
    rw [some,place,List.countP_append,List.countP_cons_of_pos rfl,← Nat.add_assoc,Nat.add_right_cancel_iff] at count
    refine ⟨?_,fun joined => ?_,control.closed,control.launched,control.drained,control.ended⟩
    · rw [List.countP_append,List.countP_cons_of_neg (by simp [Bot.running])]
      exact count
    · -- a bot that has not returned holds up the wait
      have none := control.joined joined
      omega
  | skipped => exact control
  | called pre post d place => exact control.swap _ place rfl
  | answered pre post x place => exact control.swap _ place rfl
  | sent pre post m place opened =>
    have moved := control.swap .waiting place rfl
    refine ⟨moved.waitGroup,moved.joined,moved.closed,moved.launched,fun ended => ?_,moved.ended⟩
    have closed := (control.drained ended).1
    simp [opened] at closed
  | handed pre post m place ranging => exact (control.swap .waiting place rfl).collect ranging m
  | received m rest ranging first =>
    have collected := control.collect ranging m
    exact ⟨collected.waitGroup,collected.joined,collected.closed,collected.launched,by simp,collected.ended⟩
  | drained ranging closed empty =>
    have launched : s.stage ≠ .spawning := by simp [← control.launched,ranging]
    exact ⟨control.waitGroup,control.joined,control.closed,by simp [launched],fun _ => ⟨closed,empty⟩,fun _ => rfl⟩
  | counted m counting =>
    have launched : s.stage ≠ .spawning := by simp [← control.launched,counting]
    refine ⟨control.waitGroup,control.joined,control.closed,by simp [launched],by simp,fun printed => ?_⟩
    simp [control.ended printed] at counting
  | joined waiting none =>
    have opened := control.closed
    have launched := control.launched
    rw [waiting] at opened launched
    exact ⟨control.waitGroup,fun _ => none,opened,by simpa using launched,control.drained,by simp⟩
  | closed closing opened =>
    have none : s.wg = 0 := control.joined (by rw [closing]; rfl)
    have launched := control.launched
    rw [closing] at launched
    refine ⟨control.waitGroup,fun _ => none,rfl,by simpa using launched,fun ended => ?_,by simp⟩
    exact ⟨rfl,(control.drained ended).2⟩
  | printed awaiting ended =>
    have none : s.wg = 0 := control.joined (by rw [awaiting]; rfl)
    have closed := control.closed
    rw [awaiting] at closed
    exact ⟨control.waitGroup,fun _ => none,closed,by simp [ended],control.drained,fun _ => ended⟩

/-- The requests on which a bot has called `httpClient.Do`. -/
def called (es : List Event) : List PlaceOrderReq := es.filterMap fun | .called request => some request | _ => none

def answered (es : List Event) : List Exchange := es.filterMap fun | .answered x => some x | _ => none

def counted (es : List Event) : List LatencyMetric := es.filterMap fun | .counted m => some m | _ => none

theorem called_append (es es' : List Event) : called (es ++ es') = called es ++ called es' := List.filterMap_append

theorem answered_append (es es' : List Event) : answered (es ++ es') = answered es ++ answered es' :=
  List.filterMap_append

theorem counted_append (es es' : List Event) : counted (es ++ es') = counted es ++ counted es' :=
  List.filterMap_append

def Bot.awaits : Bot → List PlaceOrderReq
  | .inFlight request => [request]
  | _ => []

def Bot.holds : Bot → List LatencyMetric
  | .sending m => [m]
  | _ => []

def Collector.holds : Collector → List LatencyMetric
  | .counting m => [m]
  | _ => []

/-- The metrics on their way from an answer to the tally. -/
def State.inTransit (s : State) : List LatencyMetric :=
  s.collector.holds ++ s.metricsChan.buffer ++ s.bots.flatMap Bot.holds

/-- Every request is in flight or answered, and every answer is on its way or counted. -/
structure Flow (es : List Event) (s : State) : Prop where
  calls : (called es).Perm ((answered es).map Exchange.request ++ s.bots.flatMap Bot.awaits)
  metrics : ((answered es).map Exchange.metric).Perm (counted es ++ s.inTransit)
  tally : s.tally = (counted es).foldl Tally.count .zero

/-- A step that calls, answers and counts nothing only moves metrics along. -/
theorem Flow.quiet (flow : Flow es s) (awaits : (s'.bots.flatMap Bot.awaits) = (s.bots.flatMap Bot.awaits))
    (moved : s.inTransit.Perm s'.inTransit) (tally : s'.tally = s.tally)
    (silent : called [e] = [] ∧ answered [e] = [] ∧ counted [e] = []) : Flow (es ++ [e]) s' := by
  obtain ⟨calls,metrics,counts⟩ := flow
  obtain ⟨noCall,noAnswer,noCount⟩ := silent
  constructor
  · rw [called_append,answered_append,noCall,noAnswer,awaits,List.append_nil,List.append_nil]
    exact calls
  · rw [answered_append,counted_append,noAnswer,noCount,List.append_nil,List.append_nil]
    exact metrics.trans (moved.append_left _)
  · rw [counted_append,noCount,List.append_nil,tally,counts]

theorem Flow.step (control : Control s) (flow : Flow es s) (moves : Moves o s e s') : Flow (es ++ [e]) s' := by
  cases moves with
  | spawned => exact flow.quiet (by simp [Bot.awaits]) (by simp [State.inTransit,Bot.holds]) rfl ⟨rfl,rfl,rfl⟩
  | launched spawning =>
    refine flow.quiet rfl ?_ rfl ⟨rfl,rfl,rfl⟩
    simp [State.inTransit,control.launched.mpr spawning,Collector.holds]
  | noTicker | overdone | burnt | reclosed => exact flow.quiet rfl (.refl _) rfl ⟨rfl,rfl,rfl⟩
  | expired | skipped | joined | closed | printed => exact flow.quiet rfl (.refl _) rfl ⟨rfl,rfl,rfl⟩
  | started pre post place | left pre post _ place =>
    refine flow.quiet ?_ ?_ rfl ⟨rfl,rfl,rfl⟩
    · simp [place,Bot.awaits]
    · simp [place,State.inTransit,Bot.holds]
  | sent pre post m place =>
    refine flow.quiet (by simp [place,Bot.awaits]) (List.perm_iff_count.mpr fun m' => ?_) rfl ⟨rfl,rfl,rfl⟩
    simp only [State.inTransit,place,Bot.holds,List.flatMap_append,List.flatMap_cons,List.count_append,List.count_nil]
    omega
  | handed pre post m place ranging =>
    refine flow.quiet (by simp [place,Bot.awaits]) (List.perm_iff_count.mpr fun m' => ?_) rfl ⟨rfl,rfl,rfl⟩
    simp only [State.inTransit,place,ranging,Bot.holds,Collector.holds,List.flatMap_append,List.flatMap_cons,
      List.count_append,List.count_nil]
    omega
  | received m rest ranging first =>
    refine flow.quiet rfl ?_ rfl ⟨rfl,rfl,rfl⟩
    simp [State.inTransit,ranging,first,Collector.holds]
  | drained ranging =>
    refine flow.quiet rfl ?_ rfl ⟨rfl,rfl,rfl⟩
    simp [State.inTransit,ranging,Collector.holds]
  | called pre post d place =>
    have log : called (es ++ [.called d.order]) = called es ++ [d.order] ∧
        answered (es ++ [.called d.order]) = answered es ∧ counted (es ++ [.called d.order]) = counted es := by
      simp [called,answered,counted]
    obtain ⟨calls',answers,counts⟩ := log
    refine ⟨List.perm_iff_count.mpr fun r => ?_,?_,by rw [counts]; exact flow.tally⟩
    · have balance := flow.calls.count_eq r
      simp only [place,calls',answers,Bot.awaits,List.flatMap_append,List.flatMap_cons,List.count_append,
        List.count_nil] at balance ⊢
      omega
    · have same := flow.metrics
      simp only [State.inTransit,place] at same ⊢
      rw [answers,counts]
      simpa [Bot.holds] using same
  | answered pre post x place =>
    have log : called (es ++ [.answered x]) = called es ∧ answered (es ++ [.answered x]) = answered es ++ [x] ∧
        counted (es ++ [.answered x]) = counted es := by
      simp [called,answered,counted]
    obtain ⟨calls',answers,counts⟩ := log
    refine ⟨List.perm_iff_count.mpr fun r => ?_,List.perm_iff_count.mpr fun m => ?_,by rw [counts]; exact flow.tally⟩
    · have balance := flow.calls.count_eq r
      simp only [place,calls',answers,Bot.awaits,List.map_append,List.map_cons,List.map_nil,List.flatMap_append,
        List.flatMap_cons,List.count_append,List.count_nil] at balance ⊢
      omega
    · have balance := flow.metrics.count_eq m
      simp only [State.inTransit,place,answers,counts,Bot.holds,List.map_append,List.map_cons,List.map_nil,
        List.flatMap_append,List.flatMap_cons,List.count_append,List.count_nil] at balance ⊢
      omega
  | counted m counting =>
    have log : called (es ++ [.counted m]) = called es ∧ answered (es ++ [.counted m]) = answered es ∧
        counted (es ++ [.counted m]) = counted es ++ [m] := by
      simp [called,answered,counted]
    obtain ⟨calls',answers,counts⟩ := log
    refine ⟨by rw [calls',answers]; exact flow.calls,?_,by rw [counts,List.foldl_append,← flow.tally]; rfl⟩
    have same := flow.metrics
    simp only [State.inTransit,counting] at same ⊢
    rw [answers,counts]
    simpa [Collector.holds] using same

theorem Control.unfinished (control : Control s) (place : s.bots = pre ++ bot :: post) (running : bot.running = true) :
    s.wg ≠ 0 := by
  rw [control.waitGroup,place,List.countP_append,List.countP_cons_of_pos running]
  omega

/-- While a bot has not returned, the channel is open. -/
theorem Control.opened (control : Control s) (place : s.bots = pre ++ bot :: post) (running : bot.running = true) :
    s.metricsChan.closed = false := by
  have waits : s.stage.joined ≠ true := fun joined => control.unfinished place running (control.joined joined)
  rw [control.closed]
  cases stage : s.stage <;> simp_all [Stage.joined,Stage.closed]

/-- After `wg.Wait` every bot has returned. -/
theorem Control.returned (control : Control s) (joined : s.stage.joined = true) : ∀ bot ∈ s.bots, bot = .finished := by
  have none := control.joined joined
  rw [control.waitGroup,List.countP_eq_zero] at none
  intro bot member
  have still := none bot member
  cases bot <;> simp_all [Bot.running]

/-- What holds throughout a run. -/
structure Upheld (o : Orchestrator) (es : List Event) (s : State) : Prop where
  control : Control s
  flow : Flow es s
  calm : ∀ why, .panicked why ∈ es → why = .ticker
  crashed : s.crashed = true → o.interval ≤ 0
  printed : ∀ lines, .printed lines ∈ es ↔ s.stage = .printed ∧ lines = summary o s.tally

theorem Control.calm (control : Control s) (moves : Moves o s (.panicked why) s') : why = .ticker := by
  cases moves with
  | noTicker => rfl
  | overdone pre post place none => exact absurd none (control.unfinished place rfl)
  | burnt pre post m place closed => simp [control.opened place rfl] at closed
  | reclosed closing closed => simp [control.closed,closing,Stage.closed] at closed

theorem Control.crashed (moves : Moves o s e s') (alive : s.crashed = false) (dead : s'.crashed = true)
    (control : Control s) : o.interval ≤ 0 := by
  cases moves with
  | noTicker late => exact late
  | overdone pre post place none => exact absurd none (control.unfinished place rfl)
  | burnt pre post m place closed => simp [control.opened place rfl] at closed
  | reclosed closing closed => simp [control.closed,closing,Stage.closed] at closed
  | _ => simp [alive] at dead

/-- A step prints, or it leaves `Run` where it was as far as printing goes. -/
theorem Control.printing (control : Control s) (moves : Moves o s e s') :
    (s.stage ≠ .printed ∧ s'.stage = .printed ∧ e = .printed (summary o s'.tally)) ∨
    ((∀ lines, e ≠ .printed lines) ∧ (s'.stage = .printed ↔ s.stage = .printed) ∧
      (s.stage = .printed → s'.tally = s.tally)) := by
  cases moves with
  | printed awaiting ended => exact .inl ⟨by simp [awaiting],rfl,rfl⟩
  | counted m counting =>
    refine .inr ⟨by simp,.rfl,fun printed => ?_⟩
    simp [control.ended printed] at counting
  | launched stage | joined stage | closed stage => exact .inr ⟨by simp,by simp [stage],fun _ => rfl⟩
  | _ => exact .inr ⟨by simp [State.panic],.rfl,fun _ => rfl⟩

theorem Upheld.step (upheld : Upheld o es s) (a : Action) (result : s.step o a = some (e,s')) :
    Upheld o (es ++ [e]) s' := by
  obtain ⟨alive,moves⟩ := step_moves a result
  refine ⟨upheld.control.step moves,upheld.flow.step upheld.control moves,fun why told => ?_,fun dead => ?_,
    fun lines => ?_⟩
  · rcases List.mem_append.mp told with early | now
    · exact upheld.calm why early
    · obtain rfl := List.mem_singleton.mp now
      exact upheld.control.calm moves
  · exact upheld.control.crashed moves alive dead
  · rw [List.mem_append,List.mem_singleton,upheld.printed]
    rcases upheld.control.printing moves with ⟨before,after,rfl⟩ | ⟨other,stage,tally⟩
    · simp [before,after]
    · constructor
      · rintro (⟨printed,rfl⟩ | now)
        · exact ⟨stage.mpr printed,by rw [tally printed]⟩
        · exact absurd now.symm (other lines)
      · rintro ⟨printed,rfl⟩
        exact .inl ⟨stage.mp printed,by rw [tally (stage.mp printed)]⟩

theorem start_upheld (started : o.start = some s) : Upheld o [] s := by
  simp only [Orchestrator.start,Option.bind_eq_some_iff] at started
  obtain ⟨ch,made,started⟩ := started
  simp only [Chan.make] at made
  split at made <;> cases made
  split at started <;> cases started
  exact ⟨⟨rfl,by simp [Stage.joined],rfl,by simp,by simp,by simp⟩,
    ⟨by simp [called,answered],by simp [answered,counted,State.inTransit,Collector.holds],rfl⟩,
    by simp,by simp,by simp⟩

theorem run_upheld (started : o.start = some s₀) (reached : run (State.step o) actions s₀ = some (es,s)) :
    Upheld o es s := by
  have kept := run_preserves (Upheld o) (fun _ _ a _ _ upheld result => upheld.step a result) actions []
    (start_upheld started) reached
  simpa using kept

/-- The sum of the latencies, as an integer. -/
def latencySum (xs : List Exchange) : Int := (xs.map fun x => x.latency.toInt).sum

/-- What the collector has counted, in the arithmetic of `int` and `time.Duration`. -/
theorem tally_totals (ms : List LatencyMetric) :
    (ms.foldl Tally.count .zero).totalRequests = Int64.ofNat ms.length ∧
    (ms.foldl Tally.count .zero).successCount = Int64.ofNat (ms.countP LatencyMetric.isSuccess) ∧
    (ms.foldl Tally.count .zero).totalLatency = Int64.ofInt (ms.map fun m => m.latency.toInt).sum := by
  induction ms using List.reverseRecOn with
  | nil => exact ⟨rfl,rfl,rfl⟩
  | append_singleton ms m ih =>
    obtain ⟨requests,successes,latency⟩ := ih
    simp only [List.foldl_append,List.foldl_cons,List.foldl_nil,Tally.count,requests,successes,latency]
    refine ⟨?_,?_,?_⟩
    · rw [List.length_append,Int64.ofNat_add]
      rfl
    · rw [List.countP_append,Int64.ofNat_add]
      cases success : m.isSuccess <;> simp [success]
    · rw [List.map_append,List.sum_append,Int64.ofInt_add]
      simp

/-- The variables of the collector against the log: every request that was called is answered
and counted once. The last two fields leave the arithmetic of `int` and `time.Duration`. -/
structure CountedOnce (es : List Event) (t : Tally) : Prop where
  answers : ((answered es).map Exchange.request).Perm (called es)
  totalRequests : t.totalRequests = Int64.ofNat (called es).length
  successCount : t.successCount = Int64.ofNat ((answered es).countP fun x => x.reply = .status 200)
  totalLatency : t.totalLatency = Int64.ofInt (latencySum (answered es))
  counts : (called es).length < 2^63 → t.totalRequests.toInt = (called es).length ∧
    t.successCount.toInt = (answered es).countP fun x => x.reply = .status 200
  duration : -2^63 ≤ latencySum (answered es) → latencySum (answered es) < 2^63 →
    t.totalLatency.toInt = latencySum (answered es)

/-- When the summary is printed nothing is in flight and nothing is on its way. -/
theorem Control.settled (control : Control s) (printed : s.stage = .printed) :
    s.bots.flatMap Bot.awaits = [] ∧ s.inTransit = [] := by
  have joined : s.stage.joined = true := by rw [printed]; rfl
  have returned {α : Type} (f : Bot → List α) (none : f .finished = []) : s.bots.flatMap f = [] := by
    rw [List.flatMap_eq_nil_iff]
    intro bot member
    rw [control.returned joined bot member,none]
  have ended := control.ended printed
  refine ⟨returned Bot.awaits rfl,?_⟩
  rw [State.inTransit,returned Bot.holds rfl,ended,(control.drained ended).2]
  rfl

theorem Upheld.countedOnce (upheld : Upheld o es s) (printed : s.stage = .printed) : CountedOnce es s.tally := by
  obtain ⟨control,flow,_,_,_⟩ := upheld
  obtain ⟨awaits,transit⟩ := control.settled printed
  have calls := flow.calls
  have metrics := flow.metrics
  rw [awaits,List.append_nil] at calls
  rw [transit,List.append_nil] at metrics
  obtain ⟨requests,successes,latency⟩ := tally_totals (counted es)
  rw [← flow.tally] at requests successes latency
  have total : (counted es).length = (called es).length := by
    rw [← metrics.length_eq,calls.length_eq,List.length_map,List.length_map]
  have good : (counted es).countP LatencyMetric.isSuccess = (answered es).countP fun x => x.reply = .status 200 := by
    rw [← metrics.countP_eq,List.countP_map]
    apply List.countP_congr
    intro x _
    cases reply : x.reply <;> simp [Exchange.metric,Reply.success,reply]
  have sum : ((counted es).map fun m => m.latency.toInt).sum = latencySum (answered es) := by
    rw [← (metrics.map _).sum_eq,List.map_map]
    rfl
  rw [total] at requests
  rw [good] at successes
  rw [sum] at latency
  refine ⟨calls.symm,requests,successes,latency,fun few => ⟨?_,?_⟩,fun low high => ?_⟩
  · rw [requests,Int64.toInt_ofNat_of_lt few]
  · have fewer := List.countP_le_length (p := fun x => decide (x.reply = .status 200)) (l := answered es)
    have same : (answered es).length = (called es).length := by rw [calls.length_eq,List.length_map]
    rw [successes,Int64.toInt_ofNat_of_lt (by omega)]
  · rw [latency,Int64.toInt_ofInt_of_le low high]

/-- No bot sends on the closed channel, and when `Run` prints its summary every request on
which a bot called `httpClient.Do` is counted once. -/
theorem requests_counted_once (started : o.start = some s₀) (reached : run (State.step o) actions s₀ = some (es,s)) :
    .panicked .sendOnClosed ∉ es ∧ (∀ m, .sending m ∈ s.bots → s.metricsChan.closed = false) ∧
    ∀ lines, .printed lines ∈ es → lines = summary o s.tally ∧ CountedOnce es s.tally := by
  have upheld := run_upheld started reached
  refine ⟨fun told => ?_,fun m member => ?_,fun lines told => ?_⟩
  · cases upheld.calm _ told
  · obtain ⟨pre,post,place⟩ := List.append_of_mem member
    exact upheld.control.opened place rfl
  · obtain ⟨printed,rfl⟩ := (upheld.printed lines).mp told
    exact ⟨rfl,upheld.countedOnce printed⟩

/-- One bot whose only request is in flight when the context expires. -/
def lastRequest : List Action :=
  [.spawn,.spawn,.newTicker 0,.tick 0 ⟨[],.last 1,.last 1,.last 1999,.last 99⟩ true,.expire,.answer 0 (.status 200) 7,
    .send 0,.ctxDone 0,.proceed,.receive,.count,.proceed,.receive,.proceed]

theorem lastRequest_counted : ∃ s₀ es s, Orchestrator.start ⟨1,2,1⟩ = some s₀ ∧
    run (State.step ⟨1,2,1⟩) lastRequest s₀ = some (es,s) ∧
    .printed [.completed,.totalRequests 1,.successful 1,.averageLatency 7,.actualTPS 1 2] ∈ es ∧
    .panicked .sendOnClosed ∉ es ∧ (∀ m, .sending m ∈ s.bots → s.metricsChan.closed = false) ∧
    ∀ lines, .printed lines ∈ es → lines = summary ⟨1,2,1⟩ s.tally ∧ CountedOnce es s.tally := by
  have log : ((Orchestrator.start ⟨1,2,1⟩).bind fun s₀ => (run (State.step ⟨1,2,1⟩) lastRequest s₀).map fun r =>
    r.1.getLast?) =
      some (some (.printed [.completed,.totalRequests 1,.successful 1,.averageLatency 7,.actualTPS 1 2])) := by decide
  obtain ⟨s₀,started,ran⟩ := Option.bind_eq_some_iff.mp log
  obtain ⟨⟨es,s⟩,reached,last⟩ := Option.map_eq_some_iff.mp ran
  exact ⟨s₀,es,s,started,reached,List.mem_of_getLast? last,requests_counted_once started reached⟩

end TradingPlatform.Loadgen
