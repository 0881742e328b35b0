import TradingPlatform.Dashboard

/-! The live standings as one system. Calls of `UpdateScore` write to Redis and publish; the hub
relays what was published to a page of `web/app.js`, which then reads the standings again with the
commands of `GetLeaderboard`. All of these interleave, requests of the page may overtake each
other, and the page connects anew when it loses its connection. -/
namespace TradingPlatform.Leaderboard.Live

open Json Runs Dashboard Ranking
open Frames (Feed newFeed onmessage)

/-- What the system is given besides the updates: the arithmetic of both sides, and how the page
writes the score of an update. -/
structure Env (F : Type) where
  ops : Floats F
  reading : Reading F
  roundScore : Option Value → JsString

/-- A request for the standings: sent, between the commands of `GetLeaderboard`, answered with a
list or in another way, or settled on the page. -/
inductive Fetch (F : Type) where
  | absent
  | sent
  | reading (rest : List (Text × F)) (entries : List (LeaderboardEntry F))
  | answered (response : Option (List (LeaderboardEntry F)))
  | settled

/-- The connection of the page: none yet, none until the timer fires, one that the hub does not
know, one that it has registered, and one that it has lost before the page knows. -/
inductive Link where
  | unloaded
  | waiting
  | connecting
  | registered (feed : Feed)
  | dropped

inductive Indicator where
  | disconnected | connected | reconnecting
  deriving DecidableEq, Repr

structure Page (F : Type) where
  leaderboardData : List (LeaderboardEntry F)
  activity : List Node
  indicator : Indicator
  issued : Nat

/-- `channel` is what the subscription has not been asked for yet, and `wire` what the page has not
handled yet. -/
structure System (F : Type) where
  ranking : Ranking.State F
  channel : List Text
  link : Link
  wire : List Text
  fetch : Nat → Fetch F
  page : Page F

variable {F : Type}

def start : System F :=
  { ranking := Ranking.start
    channel := []
    link := .unloaded
    wire := []
    fetch := fun _ => .absent
    page := ⟨[],servedFeed,.disconnected,0⟩ }

inductive Action (F : Type) where
  | update (a : Ranking.Action F)
  | relay
  | register
  | pump (a : Frames.Action)
  | drop
  | load
  | onopen
  | onmessage
  | onclose
  | retry
  | zRevRange (i : Nat) (fails : Bool)
  | hGetAll (i : Nat) (fails : Bool)
  | respond (i : Nat)
  | arrive (i : Nat)
  | lose (i : Nat)

inductive Event (F : Type) where
  | quiet
  | logged (log : Log)
  | shown (entries : List (LeaderboardEntry F))

def published : Ranking.Event → List Text
  | .published message => [message]
  | _ => []

/-- The hub's loop offers a message to the client's channel if the client is in its map. -/
def Link.offer (link : Link) (message : Text) : Link :=
  match link with
  | .registered feed =>
    match feed.send.trySend message with
    | some (true,send) => .registered { feed with send := send }
    | _ => .registered feed
  | _ => link

/-- `json.Marshal` of the entries. -/
def encode (ops : Floats F) (entries : List (LeaderboardEntry F)) : Option (List (LeaderboardEntry F)) :=
  if entries.all fun e => (ops.marshal e.tps).isSome && (ops.marshal e.p99Latency).isSome &&
    (ops.marshal e.successRate).isSome && (ops.marshal e.score).isSome
  then some entries else none

def System.log (s : System F) (log : Log) : System F :=
  { s with page := { s.page with activity := addActivityLog s.page.activity log } }

def System.setFetch (s : System F) (i : Nat) (fetch : Fetch F) : System F :=
  { s with fetch := Function.update s.fetch i fetch }

/-- Sends the request; `arrive` and `lose` are its continuation. -/
def fetchLeaderboard (s : System F) : System F :=
  { s.setFetch s.page.issued .sent with page := { s.page with issued := s.page.issued + 1 } }

def established : Log := ⟨js "System",js "Live update connection established.",.success⟩

def lost : Log := ⟨js "System",js "Live update connection lost. Reconnecting...",.system⟩

def failed : Log := ⟨js "System",js "Failed to load initial leaderboard from server.",.system⟩

def completed (env : Env F) (contestant : JsString) (score : Option Value) : Log :=
  ⟨contestant,js "Team " ++ contestant ++ js " completed a new run! New Score: " ++ env.roundScore score,.success⟩

/-- The handler of `socket.onmessage`. A contestant that is no string has no `replace`, which ends
the handler in its `catch`, as a text that is not JSON does. -/
def handle (env : Env F) (s : System F) (data : Text) : Event F × System F :=
  match onmessage data with
  | none => (.quiet,s)
  | some update =>
    match update.get (js "contestant_id") with
    | some (.str contestant) =>
      let log := completed env contestant (update.get (js "score"))
      (.logged log,fetchLeaderboard (s.log log))
    | _ => (.quiet,s)

def settle (s : System F) (i : Nat) (response : Option (List (LeaderboardEntry F))) : Event F × System F :=
  let s := s.setFetch i .settled
  match response with
  | some entries => (.shown entries,{ s with page := { s.page with leaderboardData := entries } })
  | none => (.logged failed,s.log failed)

variable [LinearOrder F]

def System.step (env : Env F) (s : System F) : Action F → Option (Event F × System F)
  | .update a => (s.ranking.step env.ops a).map fun (e,ranking) =>
      (.quiet,{ s with ranking := ranking, channel := s.channel ++ published e })
  | .relay =>
    match s.channel with
    | [] => none
    | message :: rest => some (.quiet,{ s with channel := rest, link := s.link.offer message })
  | .register =>
    match s.link with
    | .connecting => some (.quiet,{ s with link := .registered newFeed })
    | _ => none
  | .pump (.enqueue _) => none
  | .pump a =>
    match s.link with
    | .registered feed => (feed.step a).map fun (e,feed) =>
      (.quiet,{ s with link := .registered feed, wire := s.wire ++ Frames.frames [e] })
    | _ => none
  | .drop =>
    match s.link with
    | .connecting | .registered _ => some (.quiet,{ s with link := .dropped })
    | _ => none
  | .load =>
    match s.link with
    | .unloaded => some (.quiet,{ fetchLeaderboard s with link := .connecting })
    | _ => none
  | .onopen =>
    match s.link with
    | .unloaded | .waiting => none
    | _ =>
      if s.page.indicator = .connected then none
      else
        let s := { s with page := { s.page with indicator := .connected } }
        some (.logged established,s.log established)
  | .onmessage =>
    match s.wire with
    | [] => none
    | data :: rest => if s.page.indicator = .connected then some (handle env { s with wire := rest } data) else none
  | .onclose =>
    match s.link with
    | .unloaded | .waiting => none
    | _ =>
      let s := { s with link := .waiting, wire := [], page := { s.page with indicator := .reconnecting } }
      some (.logged lost,s.log lost)
  | .retry =>
    match s.link with
    | .waiting => some (.quiet,{ s with link := .connecting })
    | _ => none
  | .zRevRange i fails =>
    match s.fetch i with
    | .sent => some (.quiet,s.setFetch i (if fails then .answered none else .reading
        (zRevRange s.ranking.redis.zset (50 - 1)) []))
    | _ => none
  | .hGetAll i fails =>
    match s.fetch i with
    | .reading (z :: rest) entries =>
      let found := if fails then none else s.ranking.redis.hash z.1
      some (.quiet,s.setFetch i (.reading rest (entries ++ [entryFor env.ops env.reading found z])))
    | _ => none
  | .respond i =>
    match s.fetch i with
    | .reading [] entries => some (.quiet,s.setFetch i (.answered (encode env.ops entries)))
    | _ => none
  | .arrive i =>
    match s.fetch i with
    | .answered response => some (settle s i response)
    | _ => none
  | .lose i =>
    match s.fetch i with
    | .absent | .settled => none
    | _ => some (settle s i none)

variable {env : Env F} {s s' : System F} {es : List (Event F)} {e : Event F} {a : Action F}

/-- What a step does. The steps of the page that only concern its connection change nothing but
that and the log. -/
inductive Moves (env : Env F) (s : System F) : Action F → Event F → System F → Prop
  | update (a : Ranking.Action F) (e : Ranking.Event) (ranking : Ranking.State F)
      (result : s.ranking.step env.ops a = some (e,ranking)) :
      Moves env s (.update a) .quiet { s with ranking := ranking, channel := s.channel ++ published e }
  | relay (message : Text) (rest : List Text) (first : s.channel = message :: rest) :
      Moves env s .relay .quiet { s with channel := rest, link := s.link.offer message }
  | register (connecting : s.link = .connecting) : Moves env s .register .quiet { s with link := .registered newFeed }
  | pump (a : Frames.Action) (feed feed' : Feed) (e : Frames.Event) (registered : s.link = .registered feed)
      (other : ∀ u, a ≠ .enqueue u) (result : feed.step a = some (e,feed')) :
      Moves env s (.pump a) .quiet { s with link := .registered feed', wire := s.wire ++ Frames.frames [e] }
  | drop (loaded : s.link ≠ .unloaded) : Moves env s .drop .quiet { s with link := .dropped }
  | load (unloaded : s.link = .unloaded) : Moves env s .load .quiet { fetchLeaderboard s with link := .connecting }
  | onopen (loaded : s.link ≠ .unloaded) :
      Moves env s .onopen (.logged established)
        ({ s with page := { s.page with indicator := .connected } }.log established)
  | onmessage (data : Text) (rest : List Text) (first : s.wire = data :: rest) :
      Moves env s .onmessage (handle env { s with wire := rest } data).1 (handle env { s with wire := rest } data).2
  | onclose (loaded : s.link ≠ .unloaded) : Moves env s .onclose (.logged lost)
      ({ s with link := .waiting, wire := [], page := { s.page with indicator := .reconnecting } }.log lost)
  | retry (waiting : s.link = .waiting) : Moves env s .retry .quiet { s with link := .connecting }
  | zRevRange (i : Nat) (fails : Bool) (sent : s.fetch i = .sent) : Moves env s (.zRevRange i fails) .quiet
      (s.setFetch i (if fails then .answered none else .reading (zRevRange s.ranking.redis.zset (50 - 1)) []))
  | hGetAll (i : Nat) (fails : Bool) (z : Text × F) (rest : List (Text × F)) (entries : List (LeaderboardEntry F))
      (reading : s.fetch i = .reading (z :: rest) entries) : Moves env s (.hGetAll i fails) .quiet
      (s.setFetch i (.reading rest
        (entries ++ [entryFor env.ops env.reading (if fails then none else s.ranking.redis.hash z.1) z])))
  | respond (i : Nat) (entries : List (LeaderboardEntry F)) (reading : s.fetch i = .reading [] entries) :
      Moves env s (.respond i) .quiet (s.setFetch i (.answered (encode env.ops entries)))
  | arrive (i : Nat) (response : Option (List (LeaderboardEntry F))) (answered : s.fetch i = .answered response) :
      Moves env s (.arrive i) (settle s i response).1 (settle s i response).2
  | lose (i : Nat) (issued : s.fetch i ≠ .absent) : Moves env s (.lose i) (settle s i none).1 (settle s i none).2

theorem update_moves {a : Ranking.Action F} (result : s.step env (.update a) = some (e,s')) :
    Moves env s (.update a) e s' := by
  obtain ⟨⟨e,ranking⟩,moved,same⟩ := Option.map_eq_some_iff.mp result
  obtain ⟨rfl,rfl⟩ := Prod.mk.inj same
  exact .update a e ranking moved

theorem relay_moves (result : s.step env .relay = some (e,s')) : Moves env s .relay e s' := by
  simp only [System.step] at result
  split at result
  · simp at result
  · rename_i message rest first
    obtain ⟨rfl,rfl⟩ := Prod.mk.inj (Option.some.inj result)
    exact .relay message rest first

theorem register_moves (result : s.step env .register = some (e,s')) : Moves env s .register e s' := by
  simp only [System.step] at result
  split at result
  · rename_i connecting
    obtain ⟨rfl,rfl⟩ := Prod.mk.inj (Option.some.inj result)
    exact .register connecting
  · simp at result

theorem pump_moves {a : Frames.Action} (result : s.step env (.pump a) = some (e,s')) : Moves env s (.pump a) e s' := by
  have other : ∀ u, a ≠ .enqueue u := by
    rintro u rfl
    simp [System.step] at result
  have pumped : ∃ feed, s.link = .registered feed ∧ (feed.step a).map (fun x => (Event.quiet,
      { s with link := .registered x.2, wire := s.wire ++ Frames.frames [x.1] })) = some (e,s') := by
    cases link : s.link with
    | registered feed =>
      cases a <;> first
        | exact absurd rfl (other _)
        | exact ⟨feed,rfl,by simpa [System.step,link] using result⟩
    | _ => cases a <;> simp [System.step,link] at result
  obtain ⟨feed,registered,moved⟩ := pumped
  obtain ⟨⟨f,feed'⟩,stepped,same⟩ := Option.map_eq_some_iff.mp moved
  obtain ⟨rfl,rfl⟩ := Prod.mk.inj same
  exact .pump a feed feed' f registered other stepped

theorem drop_moves (result : s.step env .drop = some (e,s')) : Moves env s .drop e s' := by
  cases link : s.link with
  | connecting | registered =>
    simp only [System.step,link] at result
    obtain ⟨rfl,rfl⟩ := Prod.mk.inj (Option.some.inj result)
    exact .drop (by simp [link])
  | _ => simp [System.step,link] at result

theorem load_moves (result : s.step env .load = some (e,s')) : Moves env s .load e s' := by
  simp only [System.step] at result
  split at result
  · rename_i unloaded
    obtain ⟨rfl,rfl⟩ := Prod.mk.inj (Option.some.inj result)
    exact .load unloaded
  · simp at result

theorem onopen_moves (result : s.step env .onopen = some (e,s')) : Moves env s .onopen e s' := by
  simp only [System.step] at result
  split at result
  · simp at result
  · simp at result
  · rename_i loaded _
    split at result
    · simp at result
    · obtain ⟨rfl,rfl⟩ := Prod.mk.inj (Option.some.inj result)
      exact .onopen loaded

theorem onmessage_moves (result : s.step env .onmessage = some (e,s')) : Moves env s .onmessage e s' := by
  simp only [System.step] at result
  split at result
  · simp at result
  · rename_i data rest first
    split at result
    · obtain ⟨rfl,rfl⟩ := Prod.mk.inj (Option.some.inj result)
      exact .onmessage data rest first
    · simp at result

theorem onclose_moves (result : s.step env .onclose = some (e,s')) : Moves env s .onclose e s' := by
  simp only [System.step] at result
  split at result
  · simp at result
  · simp at result
  · rename_i loaded _
    obtain ⟨rfl,rfl⟩ := Prod.mk.inj (Option.some.inj result)
    exact .onclose loaded

theorem retry_moves (result : s.step env .retry = some (e,s')) : Moves env s .retry e s' := by
  simp only [System.step] at result
  split at result
  · rename_i waiting
    obtain ⟨rfl,rfl⟩ := Prod.mk.inj (Option.some.inj result)
    exact .retry waiting
  · simp at result

theorem zRevRange_moves (result : s.step env (.zRevRange i fails) = some (e,s')) :
    Moves env s (.zRevRange i fails) e s' := by
  simp only [System.step] at result
  split at result
  · rename_i sent
    obtain ⟨rfl,rfl⟩ := Prod.mk.inj (Option.some.inj result)
    exact .zRevRange i fails sent
  · simp at result

theorem hGetAll_moves (result : s.step env (.hGetAll i fails) = some (e,s')) : Moves env s (.hGetAll i fails) e s' := by
  simp only [System.step] at result
  split at result
  · rename_i z rest entries reading
    obtain ⟨rfl,rfl⟩ := Prod.mk.inj (Option.some.inj result)
    exact .hGetAll i fails z rest entries reading
  · simp at result

theorem respond_moves (result : s.step env (.respond i) = some (e,s')) : Moves env s (.respond i) e s' := by
  simp only [System.step] at result
  split at result
  · rename_i entries reading
    obtain ⟨rfl,rfl⟩ := Prod.mk.inj (Option.some.inj result)
    exact .respond i entries reading
  · simp at result

theorem arrive_moves (result : s.step env (.arrive i) = some (e,s')) : Moves env s (.arrive i) e s' := by
  simp only [System.step] at result
  split at result
  · rename_i response answered
    obtain ⟨rfl,rfl⟩ := Prod.mk.inj (Option.some.inj result)
    exact .arrive i response answered
  · simp at result

theorem lose_moves (result : s.step env (.lose i) = some (e,s')) : Moves env s (.lose i) e s' := by
  simp only [System.step] at result
  split at result
  · simp at result
  · simp at result
  · rename_i issued _
    obtain ⟨rfl,rfl⟩ := Prod.mk.inj (Option.some.inj result)
    exact .lose i issued

theorem step_moves (a : Action F) (result : s.step env a = some (e,s')) : Moves env s a e s' := by
  cases a with
  | update a => exact update_moves result
  | relay => exact relay_moves result
  | register => exact register_moves result
  | pump a => exact pump_moves result
  | drop => exact drop_moves result
  | load => exact load_moves result
  | onopen => exact onopen_moves result
  | onmessage => exact onmessage_moves result
  | onclose => exact onclose_moves result
  | retry => exact retry_moves result
  | zRevRange i fails => exact zRevRange_moves result
  | hGetAll i fails => exact hGetAll_moves result
  | respond i => exact respond_moves result
  | arrive i => exact arrive_moves result
  | lose i => exact lose_moves result

/-- The logs that the page has been given, in their order. -/
def logs (es : List (Event F)) : List Log := es.filterMap fun | .logged log => some log | _ => none

omit [LinearOrder F] in
@[simp] theorem logs_append (es es' : List (Event F)) : logs (es ++ es') = logs es ++ logs es' := by
  simp [logs]

omit [LinearOrder F] in
theorem logs_logged (log : Log) : logs [(.logged log : Event F)] = [log] := rfl

def Listed (es : List (Event F)) (s : System F) : Prop := s.page.activity = (everything (logs es)).take 32

omit [LinearOrder F] in
theorem Listed.logged (listed : Listed es s) (log : Log) (same : s'.page.activity = addActivityLog s.page.activity log) :
    Listed (es ++ [.logged log]) s' := by
  rw [Listed,same,listed,addActivityLog_everything,logs_append,logs_logged]

omit [LinearOrder F] in
theorem Listed.unlogged (listed : Listed es s) (same : s'.page.activity = s.page.activity) (nothing : logs [e] = []) :
    Listed (es ++ [e]) s' := by
  rw [Listed,same,listed,logs_append,nothing,List.append_nil]

omit [LinearOrder F] in
theorem Listed.handle (listed : Listed es s) (env : Env F) (data : Text) :
    Listed (es ++ [(handle env s data).1]) (handle env s data).2 := by
  unfold Live.handle
  split
  · exact listed.unlogged rfl rfl
  · split
    · exact listed.logged _ rfl
    · exact listed.unlogged rfl rfl

omit [LinearOrder F] in
theorem Listed.settle (listed : Listed es s) (i : Nat) (response : Option (List (LeaderboardEntry F))) :
    Listed (es ++ [(settle s i response).1]) (settle s i response).2 := by
  cases response with
  | none => exact listed.logged failed rfl
  | some entries => exact listed.unlogged rfl rfl

theorem step_listed (listed : Listed es s) (moves : Moves env s a e s') : Listed (es ++ [e]) s' := by
  cases moves with
  | onopen => exact listed.logged established rfl
  | onclose => exact listed.logged lost rfl
  | onmessage data rest first => exact Listed.handle (s := { s with wire := rest }) listed env data
  | arrive i response answered => exact listed.settle i response
  | lose i issued => exact listed.settle i none
  | _ => exact listed.unlogged rfl rfl

/-- The log of the page shows the latest 32 nodes of everything that was ever in it. Of its own
entries these are the latest 32 and not 30, once it has lost what it was served with. -/
theorem activity_latest (actions : List (Action F)) (result : run (System.step env) actions start = some (es,s)) :
    s.page.activity = (everything (logs es)).take 32 ∧
    (32 ≤ (logs es).length → s.page.activity = ((logs es).reverse.take 32).map .item) := by
  have begins : Listed ([] : List (Event F)) start := rfl
  have listed : Listed ([] ++ es) s :=
    run_preserves Listed (fun _ _ a _ _ before step => step_listed before (step_moves a step)) actions [] begins result
  refine ⟨listed,fun many => listed.trans ?_⟩
  rw [List.nil_append,everything,List.take_append_of_le_length (by simpa using many),List.map_take]

/-- Sixteen connections that are lost again. -/
def flapping : List (Action Nat) := .load :: (List.replicate 16 [.onopen,.onclose,.retry]).flatten

def wholesEnv : Env Nat := ⟨wholes,⟨fun _ => 0,fun _ => 0,0⟩,fun _ => []⟩

theorem flapping_latest : ∃ es s, run (System.step wholesEnv) flapping start = some (es,s) ∧ (logs es).length = 32 ∧
    s.page.activity = ((logs es).reverse.take 32).map .item := by
  obtain ⟨es,s,result,many⟩ : ∃ es s, run (System.step wholesEnv) flapping start = some (es,s) ∧ (logs es).length = 32 :=
    ⟨_,_,rfl,rfl⟩
  exact ⟨es,s,result,many,(activity_latest flapping result).2 (Nat.le_of_eq many.symm)⟩

end TradingPlatform.Leaderboard.Live
