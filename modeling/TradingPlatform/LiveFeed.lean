import TradingPlatform.Hub
import TradingPlatform.Runs

/-! The live feed of `pkg/leaderboard/broadcast.go`. A client whose buffer is full stays in the
map until a goroutine started for it gets through the Unregister channel; a later broadcast
reaches it if its writer makes room before that. -/
namespace TradingPlatform.Leaderboard

open Fanout Text Websocket Runs

/-- The goroutines that wait to unregister a client for its full buffer are part of the state. -/
structure Hub extends Websocket.Hub where
  evicting : List ClientRef

def newHub : Hub := ⟨Websocket.newHub,[]⟩

inductive HubAction where
  | client (a : ClientAction)
  | evict (c : ClientRef)
  | broadcast (message : Bytes)
  | offer (c : ClientRef)
  | finish
  deriving DecidableEq, Repr

def Hub.lift (h : Hub) (result : Option (Event × Websocket.Hub)) : Option (Event × Hub) :=
  result.map fun (e,hub) => (e,⟨hub,h.evicting⟩)

/-- One round of the range over the clients, which come in any order. -/
def offer (h : Hub) (c : ClientRef) : Option (Event × Hub) :=
  match h.loop with
  | .sending message pending =>
    if c ∈ pending then
      let rest : Websocket.Hub := { h.toHub with loop := .sending message (pending.erase c) }
      match (h.client c).send.trySend message with
      | none => h.lift (some h.crash)
      | some (true,send) =>
        h.lift (some (.taken c message,rest.modify c fun client => { client with send := send }))
      | some (false,_) => some (.skipped c message,⟨rest,h.evicting ++ [c]⟩)
    else none
  | _ => none

/-- The loop's second branch, fed by one of the goroutines. -/
def evict (h : Hub) (c : ClientRef) : Option (Event × Hub) :=
  if h.loop = .waiting ∧ c ∈ h.evicting then
    let (e,hub) := remove h.toHub c
    some (e,⟨hub,h.evicting.erase c⟩)
  else none

/-- The channel of broadcasts is unbuffered: the subscriber hands its payload to the loop. -/
def Hub.step (h : Hub) : HubAction → Option (Event × Hub)
  | .client a => h.lift (clientStep h.toHub a)
  | .evict c => evict h c
  | .broadcast message => h.lift (take h.toHub message)
  | .offer c => offer h c
  | .finish => h.lift (finish h.toHub)

variable {h h' : Hub} {hub hub' : Websocket.Hub} {es : List Event} {e : Event} {c : ClientRef}

/-- What holds in every run: a goroutine waits for each client in the map that missed a
broadcast, and only for clients that did. -/
structure Standing (es : List Event) (h : Hub) : Prop where
  roster : Roster es h.toHub
  missed : ∀ c ∈ h.evicting, ∃ m, .skipped c m ∈ es
  waits : ∀ c m, .skipped c m ∈ es → c ∈ h.clients → c ∈ h.evicting

theorem Standing.new (standing : Standing es h) (untold : Untold c es) : c ∉ h.evicting := by
  intro waiting
  obtain ⟨m,skipped⟩ := standing.missed c waiting
  have named := untold _ skipped
  simp [Fanout.Event.names] at named

/-- Steps in which nobody misses a broadcast, and only new clients come in. -/
theorem Standing.keep (standing : Standing es h) (roster : Roster (es ++ [e]) hub)
    (unskipped : ∀ c m, e ≠ .skipped c m) (members : ∀ d ∈ hub.clients, d ∈ h.clients ∨ Untold d es) :
    Standing (es ++ [e]) ⟨hub,h.evicting⟩ := by
  have before {d m} (skipped : Fanout.Event.skipped d m ∈ es ++ [e]) : Fanout.Event.skipped d m ∈ es := by
    simpa [(unskipped d m).symm] using skipped
  refine ⟨roster,fun d waiting => ?_,fun d m skipped member => ?_⟩
  · obtain ⟨m,skipped⟩ := standing.missed d waiting
    exact ⟨m,by simp [skipped]⟩
  · rcases members d member with old | untold
    · exact standing.waits d m (before skipped) old
    · have named := untold _ (before skipped)
      simp [Fanout.Event.names] at named

theorem lift_eq (result : h.lift base = some (e,h')) : base = some (e,h'.toHub) ∧ h' = ⟨h'.toHub,h.evicting⟩ := by
  obtain ⟨⟨e',hub⟩,known,same⟩ := Option.map_eq_some_iff.mp result
  obtain ⟨rfl,rfl⟩ := Prod.mk.inj same
  exact ⟨known,rfl⟩

theorem offer_ready (result : offer h c = some (e,h')) :
    ∃ message pending, h.loop = .sending message pending ∧ c ∈ pending := by
  unfold offer at result
  split at result
  · rename_i message pending sending
    split at result
    · rename_i offered
      exact ⟨message,pending,sending,offered⟩
    · simp at result
  · simp at result

theorem offer_eq (roster : Roster es h.toHub) (sending : h.loop = .sending message pending) (offered : c ∈ pending) :
    offer h c = some (if (h.client c).send.buffer.length < 256 then
      (.taken c message,⟨h.toHub.give c message pending,h.evicting⟩)
      else (.skipped c message,⟨{ h.toHub with loop := .sending message (pending.erase c) },h.evicting ++ [c]⟩)) := by
  have account := roster.account c
  have unclosed := (account.member.mp ((roster.ranged message pending sending).2 offered)).2
  by_cases room : (h.client c).send.buffer.length < 256
  · simp [offer,sending,offered,Chan.trySend,unclosed,account.bounded.1,room,Hub.give,Hub.modify,Hub.lift]
  · simp [offer,sending,offered,Chan.trySend,unclosed,account.bounded.1,room]

/-- An offer is taken if there is room, and otherwise starts a goroutine. -/
theorem offer_cases (roster : Roster es h.toHub) (result : offer h c = some (e,h')) :
    ∃ message pending, h.loop = .sending message pending ∧ c ∈ pending ∧
      ((h.client c).send.buffer.length < 256 ∧ e = .taken c message ∧ h' = ⟨h.toHub.give c message pending,h.evicting⟩ ∨
        ¬(h.client c).send.buffer.length < 256 ∧ e = .skipped c message ∧
          h' = ⟨{ h.toHub with loop := .sending message (pending.erase c) },h.evicting ++ [c]⟩) := by
  obtain ⟨message,pending,sending,offered⟩ := offer_ready result
  refine ⟨message,pending,sending,offered,?_⟩
  rw [offer_eq roster sending offered] at result
  by_cases room : (h.client c).send.buffer.length < 256
  · rw [if_pos room] at result
    obtain ⟨rfl,rfl⟩ := Prod.mk.inj (Option.some.inj result)
    exact .inl ⟨room,rfl,rfl⟩
  · rw [if_neg room] at result
    obtain ⟨rfl,rfl⟩ := Prod.mk.inj (Option.some.inj result)
    exact .inr ⟨room,rfl,rfl⟩

/-- A client that misses a broadcast keeps its place and its channel. -/
theorem skip_roster (roster : Roster es hub) (sending : hub.loop = .sending message pending) (offered : c ∈ pending) :
    Roster (es ++ [.skipped c message]) { hub with loop := .sending message (pending.erase c) } := by
  have account := roster.account c
  have joined := (account.member.mp ((roster.ranged message pending sending).2 offered)).1
  obtain ⟨distinct,_,inside⟩ := erase_subset_nodup roster sending c
  refine ⟨by simp,by simp [roster.calm],roster.distinct,?_,roster.change c ?_ ?_⟩
  · rintro message' pending' same
    obtain ⟨_,rfl⟩ := Loop.sending.inj same
    exact ⟨distinct,inside⟩
  · intro d differ
    simp [differ.symm,Fanout.Event.names]
  · refine ⟨fun early => ?_,by simp [joined],by simpa using account.member,?_,account.bounded⟩
    · exact absurd joined (not_joined (account.fresh early).1)
    · rw [takenBy_append,drainedBy_append,account.flow]
      simp [takenBy,drainedBy]

theorem standing_step (standing : Standing es h) (a : HubAction) (result : h.step a = some (e,h')) :
    Standing (es ++ [e]) h' := by
  have roster := standing.roster
  cases a with
  | client a =>
    obtain ⟨base,same⟩ := lift_eq result
    obtain ⟨unskipped,members⟩ := clientStep_members roster a base
    rw [same]
    exact standing.keep (clientStep_roster roster a base) unskipped members
  | evict c =>
    simp only [Hub.step,evict] at result
    split at result
    · rename_i ready
      obtain ⟨rfl,rfl⟩ := Prod.mk.inj (Option.some.inj result)
      obtain ⟨unskipped,members⟩ := remove_members roster c
      have kept := standing.keep (remove_roster roster ready.1 c) unskipped fun d member => .inl (members d member).1
      refine ⟨kept.roster,fun d waiting => kept.missed d (List.mem_of_mem_erase waiting),fun d m skipped member => ?_⟩
      exact (List.mem_erase_of_ne (members d member).2).mpr (kept.waits d m skipped member)
    · simp at result
  | broadcast message =>
    obtain ⟨base,same⟩ := lift_eq result
    obtain ⟨_,rfl,hub⟩ := take_eq base
    rw [same]
    exact standing.keep (take_roster roster base) (by simp) (by rw [hub]; exact fun d member => .inl member)
  | offer c =>
    obtain ⟨message,pending,sending,offered,⟨room,rfl,rfl⟩ | ⟨_,rfl,rfl⟩⟩ := offer_cases roster result
    · exact standing.keep (roster.give sending offered room) (by simp) (fun d member => .inl member)
    · refine ⟨skip_roster roster sending offered,fun d waiting => ?_,fun d m skipped member => ?_⟩
      · rcases List.mem_append.mp waiting with old | new
        · obtain ⟨m,skipped⟩ := standing.missed d old
          exact ⟨m,by simp [skipped]⟩
        · rw [List.mem_singleton.mp new]
          exact ⟨message,by simp⟩
      · rcases List.mem_append.mp skipped with old | new
        · exact List.mem_append_left _ (standing.waits d m old member)
        · obtain ⟨rfl,_⟩ := Fanout.Event.skipped.inj (List.mem_singleton.mp new)
          simp
  | finish =>
    obtain ⟨base,same⟩ := lift_eq result
    obtain ⟨_,rfl,hub⟩ := finish_eq base
    rw [same]
    exact standing.keep (finish_roster roster base) (by simp) (by rw [hub]; exact fun d member => .inl member)

/-- A client that waits to be disconnected is offered a broadcast only while its buffer is full. -/
def StillFull (h : Hub) : HubAction → Prop
  | .offer c => c ∈ h.evicting → 256 ≤ (h.client c).send.buffer.length
  | _ => True

theorem delivery_step (standing : Standing es h) (delivery : Delivery (· ∈ h.evicting) es h.toHub) (a : HubAction)
    (full : StillFull h a) (result : h.step a = some (e,h')) : Delivery (· ∈ h'.evicting) (es ++ [e]) h'.toHub := by
  have roster := standing.roster
  cases a with
  | client a =>
    obtain ⟨base,same⟩ := lift_eq result
    rw [same]
    exact clientStep_delivers roster delivery (fun c => standing.new) a base
  | evict c =>
    simp only [Hub.step,evict] at result
    split at result
    · rename_i ready
      obtain ⟨rfl,rfl⟩ := Prod.mk.inj (Option.some.inj result)
      have removed := remove_delivers roster delivery ready.1 c
      obtain ⟨_,members⟩ := remove_members roster c
      refine ⟨fun d member stays => removed.serves d member fun waiting => stays ?_,
        fun d joined gone => removed.ends d joined fun member => List.mem_of_mem_erase (gone member)⟩
      exact (List.mem_erase_of_ne (members d member).2).mpr waiting
    · simp at result
  | broadcast message =>
    obtain ⟨base,same⟩ := lift_eq result
    rw [same]
    exact take_delivers delivery base
  | offer c =>
    obtain ⟨message,pending,sending,offered,⟨room,rfl,rfl⟩ | ⟨room,rfl,rfl⟩⟩ := offer_cases roster result
    · refine give_delivers roster delivery sending offered fun waiting => ?_
      have stuck := full waiting
      omega
    · refine skip_delivers roster delivery sending offered room rfl (fun _ _ => Iff.rfl) (fun d differ => ?_) (by simp)
      simp [differ]
  | finish =>
    obtain ⟨base,same⟩ := lift_eq result
    rw [same]
    exact finish_delivers delivery base

theorem new_standing : Standing [] newHub := ⟨new_roster,by simp [newHub],by simp⟩

theorem run_standing (result : run Hub.step actions newHub = some (es,h)) : Standing es h := by
  simpa using run_preserves Standing (fun _ _ a _ _ before step => standing_step before a step) actions
    [] new_standing result

theorem gapless_of_delivery (standing : Standing es h) (delivery : Delivery (· ∈ h.evicting) es h.toHub) (c : ClientRef) :
    Gapless 256 c es := by
  by_cases joined : Fanout.Event.joined c ∈ es
  · by_cases served : c ∈ h.clients ∧ c ∉ h.evicting
    · exact .inr (.inl ⟨_,delivery.serves c served.1 served.2⟩)
    · exact .inr (.inr (delivery.ends c joined (by simpa using served)))
  · exact .inl ⟨joined,standing.roster.unknown joined⟩

/-- The feed of every client is without gaps exactly in the runs in which a client that waits to
be disconnected finds no room in its buffer. -/
theorem feed_gapless_iff (actions : List HubAction) (result : run Hub.step actions newHub = some (es,h)) :
    (∀ c, Gapless 256 c es ∧ StopsAtSkip c es) ↔ EachStep Hub.step StillFull actions newHub := by
  constructor
  · intro gapless front a rest os t split before
    subst split
    obtain ⟨os',later,m,first,second,rfl⟩ := run_append_inv result
    obtain ⟨rfl,rfl⟩ := outcome_unique before first
    obtain ⟨o,later',t',step,_,rfl⟩ := run_cons_inv second
    have standing := run_standing before
    cases a with
    | offer c =>
      intro waiting
      by_contra free
      obtain ⟨message,_,_,_,⟨_,rfl,_⟩ | ⟨full,_,_⟩⟩ := offer_cases standing.roster step
      case inr => omega
      obtain ⟨m,skipped⟩ := standing.missed c waiting
      obtain ⟨early,late,rfl⟩ := List.append_of_mem skipped
      have nothing := (gapless c).2 early (late ++ .taken c message :: later') m (by simp)
      simp [takenBy] at nothing
    | client a => trivial
    | evict c => trivial
    | broadcast message => trivial
    | finish => trivial
  · intro full c
    have both := run_preserves_under (fun es h => Standing es h ∧ Delivery (· ∈ h.evicting) es h.toHub)
      (fun _ _ a _ _ before full step => ⟨standing_step before.1 a step,delivery_step before.1 before.2 a full step⟩)
      actions [] ⟨new_standing,new_delivery _⟩ full result
    have gapless := gapless_of_delivery both.1 both.2 c
    exact ⟨gapless,gapless.stops⟩

def shortFeed : List HubAction :=
  [.client (.serveWs 1),.client (.register 1),.broadcast (ascii "a"),.offer 1,.finish,.client (.write 1 false),
    .client (.readError 1),.client (.unregister 1),.broadcast (ascii "b")]

theorem shortFeed_gapless_iff : ∃ es h, run Hub.step shortFeed newHub = some (es,h) ∧ takenBy 1 es = [ascii "a"] ∧
    ((∀ c, Gapless 256 c es ∧ StopsAtSkip c es) ↔ EachStep Hub.step StillFull shortFeed newHub) :=
  ⟨_,_,rfl,rfl,feed_gapless_iff shortFeed rfl⟩

/-- The hub with one client and these messages in its buffer. -/
def holding (buffer : List Bytes) : Hub :=
  ⟨⟨[1],.waiting,Function.update Websocket.newHub.client 1 ⟨⟨256,buffer,false⟩,.reading,true⟩⟩,[]⟩

def oneRound : List HubAction := [.broadcast (ascii "a"),.offer 1,.finish]

theorem holding_round (room : buffer.length < 256) : run Hub.step oneRound (holding buffer) =
    some ([.handled (ascii "a"),.taken 1 (ascii "a"),.quiet],holding (buffer ++ [ascii "a"])) := by
  simp [run,oneRound,Hub.step,take,offer,finish,Hub.lift,holding,Hub.modify,Chan.trySend,room]

theorem holding_rounds (k : Nat) (room : buffer.length + k ≤ 256) : ∃ es buffer',
    run Hub.step (List.replicate k oneRound).flatten (holding buffer) = some (es,holding buffer') ∧
      buffer'.length = buffer.length + k := by
  induction k generalizing buffer with
  | zero => exact ⟨[],buffer,rfl,rfl⟩
  | succ k ih =>
    obtain ⟨es,buffer',rest,length⟩ := @ih (buffer ++ [ascii "a"]) (by simp; omega)
    rw [List.replicate_succ,List.flatten_cons]
    exact ⟨_,buffer',run_append (holding_round (by omega)) rest,by simp at length; omega⟩

/-- A full buffer, a missed broadcast, one message taken out, and room for the next broadcast. -/
theorem holding_gap (full : (first :: rest).length = 256) :
    ∃ h, run Hub.step (oneRound ++ [.client (.write 1 false),.broadcast (ascii "a"),.offer 1]) (holding (first :: rest)) =
      some ([.handled (ascii "a"),.skipped 1 (ascii "a"),.quiet,.drained 1 first,.handled (ascii "a"),
        .taken 1 (ascii "a")],h) := by
  rw [List.length_cons] at full
  have room : rest.length < 256 := by omega
  simp [run,oneRound,Hub.step,take,offer,finish,clientStep,write,Hub.lift,holding,Hub.modify,Chan.trySend,
    Chan.receive,full,room]

/-- A client's buffer fills up, it misses a broadcast, its writer makes room for one message, and
the next broadcast goes in before the disconnecting goroutine is heard. -/
def overflow : List HubAction :=
  [.client (.serveWs 1),.client (.register 1)] ++ (List.replicate 256 oneRound).flatten ++
    (oneRound ++ [.client (.write 1 false),.broadcast (ascii "a"),.offer 1])

theorem overflow_leaves_gap : ∃ es h, run Hub.step overflow newHub = some (es,h) ∧
    ¬StopsAtSkip 1 es ∧ ¬Gapless 256 1 es := by
  have start : run Hub.step [.client (.serveWs 1),.client (.register 1)] newHub =
    some ([.quiet,.joined 1],holding []) := by
    simp [run,Hub.step,clientStep,serveWs,register,Hub.lift,Hub.modify,holding,newHub,Websocket.newHub]
  obtain ⟨es,buffer,rounds,length⟩ := @holding_rounds [] 256 (by simp)
  obtain ⟨first,rest,rfl⟩ := List.exists_cons_of_length_pos (show 0 < buffer.length by simp [length])
  obtain ⟨h,tail⟩ := @holding_gap first rest (by simpa using length)
  have gap : ¬StopsAtSkip 1 ([.quiet,.joined 1] ++ es ++ [.handled (ascii "a"),.skipped 1 (ascii "a"),.quiet,
      .drained 1 first,.handled (ascii "a"),.taken 1 (ascii "a")]) := by
    intro stops
    have nothing := stops ([.quiet,.joined 1] ++ es ++ [.handled (ascii "a")])
      [.quiet,.drained 1 first,.handled (ascii "a"),.taken 1 (ascii "a")] (ascii "a") (by simp)
    simp [takenBy] at nothing
  exact ⟨_,h,run_append (run_append start rounds) tail,gap,fun gapless => gap gapless.stops⟩

end TradingPlatform.Leaderboard
