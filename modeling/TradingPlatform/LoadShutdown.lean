import TradingPlatform.LoadCounts

/-! The load generator comes to its end. Every step but a new request lowers a weight, and until
the summary is printed some party can make one: no order of the sends, the receives and the
shutdown is a deadlock, with a buffer or without. -/
namespace TradingPlatform.Loadgen

open Fanout Runs

variable {o : Orchestrator} {s : State} {es : List Event}

def Bot.weight : Bot → Nat
  | .finished => 0
  | .waiting => 1
  | .starting => 2
  | .sending _ => 4
  | .inFlight _ => 5

def Collector.weight : Collector → Nat
  | .ended => 0
  | .unstarted | .ranging => 1
  | .counting _ => 2

def Stage.weight : Stage → Nat
  | .printed => 0
  | .awaiting => 1
  | .closing => 2
  | .waiting => 3
  | .spawning => 4

/-- The steps left once no bot makes another request. -/
def State.weight (o : Orchestrator) (s : State) : Nat :=
  3 * (o.numBots.toInt.toNat - s.bots.length) + (s.bots.map Bot.weight).sum + 2 * s.metricsChan.buffer.length +
    s.collector.weight + s.stage.weight + if s.expired then 0 else 1

/-- A step that makes no request and brings the summary nearer. -/
def Advances (o : Orchestrator) (s : State) : Prop :=
  ∃ a e s', s.step o a = some (e,s') ∧ called [e] = [] ∧ s'.weight o < s.weight o

theorem place_at (place : s.bots = pre ++ old :: post) (new : Bot) :
    s.bots[pre.length]? = some old ∧ s.place pre.length new = { s with bots := pre ++ new :: post } := by
  simp [State.place,place]

theorem count_advances (alive : s.crashed = false) (counting : s.collector = .counting m) : Advances o s := by
  refine ⟨.count,.counted m,{ s with collector := .ranging, tally := s.tally.count m },?_,rfl,?_⟩
  · simp [State.step,alive,count,counting]
  · simp [State.weight,counting,Collector.weight]

theorem receive_advances (alive : s.crashed = false) (ranging : s.collector = .ranging)
    (ready : s.metricsChan.buffer ≠ [] ∨ s.metricsChan.closed = true) : Advances o s := by
  cases first : s.metricsChan.buffer with
  | nil =>
    have closed : s.metricsChan.closed = true := by simpa [first] using ready
    refine ⟨.receive,.quiet,{ s with collector := .ended },?_,rfl,?_⟩
    · simp [State.step,alive,receive,ranging,Chan.receive,first,closed]
    · simp [State.weight,ranging,Collector.weight]
  | cons m rest =>
    refine ⟨.receive,.quiet,{ s with metricsChan := { s.metricsChan with buffer := rest }, collector := .counting m },
      ?_,rfl,?_⟩
    · simp [State.step,alive,receive,ranging,Chan.receive,first]
    · simp [State.weight,ranging,first,Collector.weight]
      omega

/-- A bot at its send is let go, or the collector makes room. -/
theorem send_advances (control : Control s) (alive : s.crashed = false) (launched : s.stage ≠ .spawning)
    (place : s.bots = pre ++ .sending m :: post) : Advances o s := by
  have opened := control.opened place rfl
  obtain ⟨found,moved⟩ := place_at place .waiting
  by_cases room : s.metricsChan.buffer.length < s.metricsChan.capacity
  · refine ⟨.send pre.length,.quiet,{ s with
      bots := pre ++ .waiting :: post
      metricsChan := { s.metricsChan with buffer := s.metricsChan.buffer ++ [m] } },?_,rfl,?_⟩
    · simp [State.step,alive,send,found,moved,Chan.send,opened,room]
    · simp [State.weight,place,Bot.weight]
      omega
  · cases collector : s.collector with
    | unstarted => exact absurd (control.launched.mp collector) launched
    | ended =>
      have closed := (control.drained collector).1
      simp [opened] at closed
    | counting m' => exact count_advances alive collector
    | ranging =>
      by_cases empty : s.metricsChan.buffer = []
      · refine ⟨.handOver pre.length,.quiet,{ s with bots := pre ++ .waiting :: post, collector := .counting m },
          ?_,rfl,?_⟩
        · simp [State.step,alive,handOver,found,moved,opened,empty,collector]
        · simp [State.weight,place,collector,Bot.weight,Collector.weight]
          omega
      · exact receive_advances alive collector (.inl empty)

/-- A bot that has not returned goes on, or something it waits for does. -/
theorem bot_advances (control : Control s) (alive : s.crashed = false) (ticks : 0 < o.interval)
    (launched : s.stage ≠ .spawning) (place : s.bots = pre ++ bot :: post) (running : bot.running = true) :
    Advances o s := by
  cases bot with
  | finished => simp [Bot.running] at running
  | sending m => exact send_advances control alive launched place
  | starting =>
    obtain ⟨found,moved⟩ := place_at place .waiting
    refine ⟨.newTicker pre.length,.quiet,{ s with bots := pre ++ .waiting :: post },?_,rfl,?_⟩
    · simp [State.step,alive,newTicker,found,moved,Int64.not_le.mpr ticks]
    · simp [State.weight,place,Bot.weight]
  | inFlight request =>
    obtain ⟨found,moved⟩ := place_at place (.sending ⟨0,false⟩)
    refine ⟨.answer pre.length .error 0,.answered ⟨request,.error,0⟩,
      { s with bots := pre ++ .sending ⟨0,false⟩ :: post },?_,rfl,?_⟩
    · simp [State.step,alive,answer,found,Exchange.metric,Reply.success,moved]
    · simp [State.weight,place,Bot.weight]
  | waiting =>
    cases late : s.expired with
    | false =>
      refine ⟨.expire,.quiet,{ s with expired := true },?_,rfl,?_⟩
      · simp [State.step,alive]
      · simp [State.weight,late]
    | true =>
      obtain ⟨found,moved⟩ := place_at place .finished
      obtain ⟨wg,some⟩ := Nat.exists_eq_succ_of_ne_zero (control.unfinished place running)
      refine ⟨.ctxDone pre.length,.quiet,{ s with bots := pre ++ .finished :: post, wg := wg },?_,rfl,?_⟩
      · simp [State.step,alive,ctxDone,found,moved,late,some]
      · simp [State.weight,place,Bot.weight]

/-- No state is a deadlock: until the summary is printed somebody can go on without a new
request, whether the channel has a buffer or not. -/
theorem advances (control : Control s) (alive : s.crashed = false) (ticks : 0 < o.interval)
    (unprinted : s.stage ≠ .printed) : Advances o s := by
  cases stage : s.stage with
  | printed => exact absurd stage unprinted
  | spawning =>
    by_cases more : (s.bots.length : Int) < o.numBots.toInt
    · refine ⟨.spawn,.quiet,{ s with wg := s.wg + 1, bots := s.bots ++ [.starting] },?_,rfl,?_⟩
      · simp [State.step,alive,spawn,stage,more]
      · simp only [State.weight,List.length_append,List.length_singleton,List.map_append,List.map_cons,List.map_nil,
          List.sum_append,List.sum_singleton,Bot.weight]
        omega
    · refine ⟨.spawn,.quiet,{ s with stage := .waiting, collector := .ranging },?_,rfl,?_⟩
      · simp [State.step,alive,spawn,stage,more]
      · simp [State.weight,stage,control.launched.mpr stage,Collector.weight,Stage.weight]
  | waiting =>
    by_cases none : s.wg = 0
    · refine ⟨.proceed,.quiet,{ s with stage := .closing },?_,rfl,?_⟩
      · simp [State.step,alive,proceed,stage,none]
      · simp [State.weight,stage,Stage.weight]
    · rw [control.waitGroup] at none
      obtain ⟨bot,member,running⟩ := List.countP_pos_iff.mp (Nat.pos_of_ne_zero none)
      obtain ⟨pre,post,place⟩ := List.append_of_mem member
      exact bot_advances control alive ticks (by simp [stage]) place running
  | closing =>
    have opened : s.metricsChan.closed = false := by rw [control.closed,stage]; rfl
    refine ⟨.proceed,.quiet,{ s with stage := .awaiting, metricsChan := { s.metricsChan with closed := true } },?_,rfl,?_⟩
    · simp [State.step,alive,proceed,stage,Chan.close,opened]
    · simp [State.weight,stage,Stage.weight]
  | awaiting =>
    have closed : s.metricsChan.closed = true := by rw [control.closed,stage]; rfl
    cases collector : s.collector with
    | unstarted => simp [control.launched.mp collector] at stage
    | counting m => exact count_advances alive collector
    | ranging => exact receive_advances alive collector (.inr closed)
    | ended =>
      refine ⟨.proceed,.printed (summary o s.tally),{ s with stage := .printed },?_,rfl,?_⟩
      · simp [State.step,alive,proceed,stage,collector]
      · simp [State.weight,stage,Stage.weight]

/-- From every state of a run `Run` can be brought to its summary without another request. -/
theorem run_winds_down (ticks : 0 < o.interval) (started : o.start = some s₀)
    (reached : run (State.step o) actions s₀ = some (es,s)) :
    ∃ rest later t, run (State.step o) rest s = some (later,t) ∧ called later = [] ∧
      .printed (summary o t.tally) ∈ es ++ later ∧ CountedOnce (es ++ later) t.tally := by
  have alive {u : State} {log : List Event} (upheld : Upheld o log u) : u.crashed = false := by
    cases dead : u.crashed with
    | false => rfl
    | true => exact absurd ticks (Int64.not_lt.mpr (upheld.crashed dead))
  have progress : ∀ u, (∃ log, Upheld o log u) → u.stage ≠ .printed →
      ∃ a e u', u.step o a = some (e,u') ∧ called [e] = [] ∧ (∃ log, Upheld o log u') ∧ u'.weight o < u.weight o := by
    rintro u ⟨log,upheld⟩ unprinted
    obtain ⟨a,e,u',result,silent,lower⟩ := advances upheld.control (alive upheld) ticks unprinted
    exact ⟨a,e,u',result,silent,⟨_,upheld.step a result⟩,lower⟩
  obtain ⟨rest,later,t,ran,silent,_,printed⟩ := run_ends (fun u => ∃ log, Upheld o log u) (fun u => u.stage = .printed)
    (fun e => called [e] = []) (State.weight o) progress ⟨es,run_upheld started reached⟩
  have upheld := run_upheld started (run_append reached ran)
  refine ⟨rest,later,t,ran,?_,(upheld.printed _).mpr ⟨printed,rfl⟩,upheld.countedOnce printed⟩
  apply List.filterMap_eq_nil_iff.mpr
  intro e member
  have none := silent e member
  cases e <;> simp_all [called]

/-- The request is in flight and the context has expired. -/
theorem lastRequest_winds_down : ∃ s₀ es s, Orchestrator.start ⟨1,2,1⟩ = some s₀ ∧
    run (State.step ⟨1,2,1⟩) (lastRequest.take 5) s₀ = some (es,s) ∧ s.expired = true ∧
    ∃ rest later t, run (State.step ⟨1,2,1⟩) rest s = some (later,t) ∧ called later = [] ∧
      .printed (summary ⟨1,2,1⟩ t.tally) ∈ es ++ later ∧ CountedOnce (es ++ later) t.tally := by
  have late : ((Orchestrator.start ⟨1,2,1⟩).bind fun s₀ =>
      (run (State.step ⟨1,2,1⟩) (lastRequest.take 5) s₀).map fun r => r.2.expired) = some true := by decide
  obtain ⟨s₀,started,ran⟩ := Option.bind_eq_some_iff.mp late
  obtain ⟨⟨es,s⟩,reached,expired⟩ := Option.map_eq_some_iff.mp ran
  exact ⟨s₀,es,s,started,reached,expired,run_winds_down (by decide) started reached⟩

end TradingPlatform.Loadgen
