import TradingPlatform.Hub
import TradingPlatform.Runs

/-! The market-data hub of `pkg/api/hub.go`. A client whose buffer is full is taken out of the
map and its channel closed within the same round, so no client ever has a gap in its feed. -/
namespace TradingPlatform.Api

open Fanout Text Websocket Runs

structure Hub extends Websocket.Hub where
  broadcast : List Bytes

def newHub : Hub := ⟨Websocket.newHub,[]⟩

inductive HubAction where
  | client (a : ClientAction)
  | broadcast (message : Bytes)
  | take
  | offer (c : ClientRef)
  | finish
  deriving DecidableEq, Repr

/-- One round of the range over the clients, which come in any order. -/
def offer (h : Websocket.Hub) (c : ClientRef) : Option (Event × Websocket.Hub) :=
  match h.loop with
  | .sending message pending =>
    if c ∈ pending then
      let rest := { h with loop := .sending message (pending.erase c) }
      match (h.client c).send.trySend message with
      | none => some h.crash
      | some (true,send) => some (.taken c message,rest.modify c fun client => { client with send := send })
      | some (false,_) =>
        match (h.client c).send.close with
        | none => some h.crash
        | some send =>
          some (.skipped c message,{ rest with clients := h.clients.erase c }.modify c fun client =>
            { client with send := send })
    else none
  | _ => none

def Hub.lift (h : Hub) (result : Option (Event × Websocket.Hub)) : Option (Event × Hub) :=
  result.map fun (e,hub) => (e,⟨hub,h.broadcast⟩)

def Hub.step (h : Hub) : HubAction → Option (Event × Hub)
  | .client a => h.lift (clientStep h.toHub a)
  | .broadcast message =>
    if h.broadcast.length < 4096 then some (.quiet,{ h with broadcast := h.broadcast ++ [message] }) else none
  | .take =>
    match h.broadcast with
    | message :: rest => (Websocket.take h.toHub message).map fun (e,hub) => (e,⟨hub,rest⟩)
    | [] => none
  | .offer c => h.lift (offer h.toHub c)
  | .finish => h.lift (finish h.toHub)

variable {h h' : Hub} {hub hub' : Websocket.Hub} {es : List Event} {e : Event} {c : ClientRef}

/-- Nobody is away: who misses a message is out at once. -/
structure HubInvariant (es : List Event) (h : Websocket.Hub) : Prop where
  roster : Roster es h
  delivery : Delivery (fun _ => False) es h

theorem offer_eq (roster : Roster es hub) (sending : hub.loop = .sending message pending) (offered : c ∈ pending) :
    offer hub c = some (if (hub.client c).send.buffer.length < 256 then (.taken c message,hub.give c message pending)
      else (.skipped c message,
        { hub with loop := .sending message (pending.erase c), clients := hub.clients.erase c }.modify c
          fun client => { client with send := { client.send with closed := true } })) := by
  have account := roster.account c
  have unclosed := (account.member.mp ((roster.ranged message pending sending).2 offered)).2
  by_cases room : (hub.client c).send.buffer.length < 256
  · simp [offer,sending,offered,Chan.trySend,unclosed,account.bounded.1,room,Hub.give,Hub.modify]
  · simp [offer,sending,offered,Chan.trySend,Chan.close,unclosed,account.bounded.1,room,Hub.modify]

theorem offer_ready (result : offer hub c = some (e,hub')) :
    ∃ message pending, hub.loop = .sending message pending ∧ c ∈ pending := by
  unfold offer at result
  split at result
  · rename_i message pending sending
    split at result
    · rename_i offered
      exact ⟨message,pending,sending,offered⟩
    · simp at result
  · simp at result

/-- Closing the channel and leaving the map go together. -/
theorem evict_roster (roster : Roster es hub) (sending : hub.loop = .sending message pending) (offered : c ∈ pending) :
    Roster (es ++ [.skipped c message])
      ({ hub with loop := .sending message (pending.erase c), clients := hub.clients.erase c }.modify c
        fun client => { client with send := { client.send with closed := true } }) := by
  have account := roster.account c
  have member := (roster.ranged message pending sending).2 offered
  have joined := (account.member.mp member).1
  obtain ⟨distinct,last,inside⟩ := erase_subset_nodup roster sending c
  refine ⟨by simp,by simp [roster.calm],roster.distinct.erase c,?_,roster.change c ?_ ?_⟩
  · rintro message' pending' same
    obtain ⟨_,rfl⟩ := Loop.sending.inj same
    refine ⟨distinct,fun d kept => roster.distinct.mem_erase_iff.mpr ⟨?_,inside kept⟩⟩
    rintro rfl
    exact last kept
  · intro d differ
    simp [differ,differ.symm,Fanout.Event.names,List.mem_erase_of_ne differ]
  · refine ⟨fun early => ?_,by simp [joined],?_,?_,by simpa using account.bounded⟩
    · exact absurd joined (not_joined (account.fresh (by simpa using early)).1)
    · simp [roster.distinct.mem_erase_iff]
    · rw [takenBy_append,drainedBy_append,account.flow]
      simp [takenBy,drainedBy]

theorem offer_invariant (invariant : HubInvariant es hub) (result : offer hub c = some (e,hub')) :
    HubInvariant (es ++ [e]) hub' := by
  obtain ⟨message,pending,sending,offered⟩ := offer_ready result
  rw [offer_eq invariant.roster sending offered] at result
  by_cases room : (hub.client c).send.buffer.length < 256
  · rw [if_pos room] at result
    obtain ⟨rfl,rfl⟩ := Prod.mk.inj (Option.some.inj result)
    exact ⟨invariant.roster.give sending offered room,
      give_delivers invariant.roster invariant.delivery sending offered (by simp)⟩
  · rw [if_neg room] at result
    obtain ⟨rfl,rfl⟩ := Prod.mk.inj (Option.some.inj result)
    refine ⟨evict_roster invariant.roster sending offered,
      skip_delivers invariant.roster invariant.delivery sending offered room rfl ?_ (by simp) ?_⟩
    · intro d differ
      simp [List.mem_erase_of_ne differ]
    · simp [invariant.roster.distinct.mem_erase_iff]

theorem hub_lift_some (result : h.lift base = some (e,h')) : base = some (e,h'.toHub) := by
  obtain ⟨⟨e',hub⟩,known,same⟩ := Option.map_eq_some_iff.mp result
  obtain ⟨rfl,rfl⟩ := Prod.mk.inj same
  exact known

theorem hub_step_invariant (invariant : HubInvariant es h.toHub) (a : HubAction) (result : h.step a = some (e,h')) :
    HubInvariant (es ++ [e]) h'.toHub := by
  obtain ⟨roster,delivery⟩ := invariant
  cases a with
  | client a =>
    exact ⟨clientStep_roster roster a (hub_lift_some result),
      clientStep_delivers roster delivery (by simp) a (hub_lift_some result)⟩
  | broadcast message =>
    simp only [Hub.step] at result
    split at result
    · obtain ⟨rfl,rfl⟩ := Prod.mk.inj (Option.some.inj result)
      exact ⟨roster.quiet,delivery.pass (fun _ => rfl) (fun _ => rfl) rfl rfl (fun _ => rfl)⟩
    · simp at result
  | take =>
    simp only [Hub.step] at result
    split at result
    · obtain ⟨⟨e',hub⟩,known,same⟩ := Option.map_eq_some_iff.mp result
      obtain ⟨rfl,rfl⟩ := Prod.mk.inj same
      exact ⟨take_roster roster known,take_delivers delivery known⟩
    · simp at result
  | offer c => exact offer_invariant ⟨roster,delivery⟩ (hub_lift_some result)
  | finish => exact ⟨finish_roster roster (hub_lift_some result),finish_delivers delivery (hub_lift_some result)⟩

theorem hub_run_invariant (result : run Hub.step actions newHub = some (es,h)) : HubInvariant es h.toHub := by
  have start : HubInvariant [] newHub.toHub := ⟨new_roster,new_delivery _⟩
  simpa using run_preserves (fun es h => HubInvariant es h.toHub)
    (fun _ _ a _ _ before step => hub_step_invariant before a step) actions [] start result

/-- Whatever the handlers, the pumps and the broadcasts do, the hub never panics, a client is in
the map exactly from its registration until its channel is closed, and what it is given are the
broadcasts from the first one after its registration on: all of them while it is in the map,
otherwise those up to its unregistration or to the one that found its buffer full. -/
theorem hub_delivers (actions : List HubAction) (result : run Hub.step actions newHub = some (es,h)) :
    .panicked ∉ es ∧ ∀ c,
      (c ∈ h.clients ↔ .joined c ∈ es ∧ (h.client c).send.closed = false) ∧
      takenBy c es = drainedBy c es ++ (h.client c).send.buffer ∧
      (.joined c ∉ es → takenBy c es = []) ∧
      (c ∈ h.clients → Inside c es (h.owed c)) ∧
      (.joined c ∈ es → c ∉ h.clients → Ended 256 c es) := by
  obtain ⟨roster,delivery⟩ := hub_run_invariant result
  refine ⟨roster.calm,fun c => ?_⟩
  have account := roster.account c
  exact ⟨account.member,account.flow,roster.unknown,fun member => delivery.serves c member id,
    fun joined gone => delivery.ends c joined fun member => absurd member gone⟩

/-- The first client leaves before the second broadcast is handled. -/
def sampleFeed : List HubAction :=
  [.client (.serveWs 1),.client (.serveWs 2),.client (.register 1),.broadcast (ascii "a"),.take,.offer 1,.finish,
    .client (.register 2),.client (.write 1 false),.broadcast (ascii "b"),.client (.readError 1),
    .client (.unregister 1),.take,.offer 2]

theorem sampleFeed_delivers : ∃ es h, run Hub.step sampleFeed newHub = some (es,h) ∧ es =
    [.quiet,.quiet,.joined 1,.quiet,.handled (ascii "a"),.taken 1 (ascii "a"),.quiet,.joined 2,
      .drained 1 (ascii "a"),.quiet,.quiet,.left 1,.handled (ascii "b"),.taken 2 (ascii "b")] ∧
    .panicked ∉ es ∧ ∀ c,
      (c ∈ h.clients ↔ .joined c ∈ es ∧ (h.client c).send.closed = false) ∧
      takenBy c es = drainedBy c es ++ (h.client c).send.buffer ∧
      (.joined c ∉ es → takenBy c es = []) ∧
      (c ∈ h.clients → Inside c es (h.owed c)) ∧
      (.joined c ∈ es → c ∉ h.clients → Ended 256 c es) :=
  ⟨_,_,rfl,rfl,hub_delivers sampleFeed rfl⟩

end TradingPlatform.Api
