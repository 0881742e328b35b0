import TradingPlatform.Fanout
import TradingPlatform.Text

/-! What the hubs of `pkg/api/hub.go` and `pkg/leaderboard/broadcast.go` have in common: the
client, its handler and its two pumps, and the hub's loop but for the branch of a full buffer.
The two unbuffered channels are rendezvous with the loop. -/
namespace TradingPlatform.Websocket

open Fanout Text

abbrev ClientRef := Nat

/-- Where the handler and then the read pump of a client stand. -/
inductive Stage where
  | absent
  | registering
  | reading
  | leaving
  | left
  deriving DecidableEq, Repr

structure Client where
  send : Chan Bytes
  stage : Stage
  writing : Bool
  deriving DecidableEq, Repr

/-- The loop waits at its select, or ranges over the clients with a message. -/
inductive Loop where
  | waiting
  | sending (message : Bytes) (pending : List ClientRef)
  | crashed
  deriving DecidableEq, Repr

structure Hub where
  clients : List ClientRef
  loop : Loop
  client : ClientRef → Client

abbrev Event := Fanout.Event ClientRef Bytes

def newHub : Hub := ⟨[],.waiting,fun _ => ⟨⟨256,[],false⟩,.absent,false⟩⟩

def Hub.modify (h : Hub) (c : ClientRef) (f : Client → Client) : Hub :=
  { h with client := Function.update h.client c (f (h.client c)) }

def Hub.crash (h : Hub) : Event × Hub := (.panicked,{ h with loop := .crashed })

/-- `ServeWs` up to its send on the register channel. -/
def serveWs (h : Hub) (c : ClientRef) : Option (Event × Hub) :=
  if (h.client c).stage = .absent then
    some (.quiet,h.modify c fun _ => ⟨⟨256,[],false⟩,.registering,false⟩)
  else none

/-- The loop's first branch, after which `ServeWs` starts the pumps. -/
def register (h : Hub) (c : ClientRef) : Option (Event × Hub) :=
  if h.loop = .waiting ∧ (h.client c).stage = .registering then
    let clients := if c ∈ h.clients then h.clients else h.clients ++ [c]
    some (.joined c,{ h with clients := clients }.modify c fun client =>
      { client with stage := .reading, writing := true })
  else none

/-- A read error ends the loop of the read pump. -/
def readError (h : Hub) (c : ClientRef) : Option (Event × Hub) :=
  if (h.client c).stage = .reading then some (.quiet,h.modify c fun client => { client with stage := .leaving })
  else none

/-- The loop's second branch, whoever sent the client. -/
def remove (h : Hub) (c : ClientRef) : Event × Hub :=
  if c ∈ h.clients then
    match (h.client c).send.close with
    | none => h.crash
    | some send => (.left c,{ h with clients := h.clients.erase c }.modify c fun client => { client with send := send })
  else (.quiet,h)

/-- The last act of the read pump. -/
def unregister (h : Hub) (c : ClientRef) : Option (Event × Hub) :=
  if h.loop = .waiting ∧ (h.client c).stage = .leaving then
    some (remove (h.modify c fun client => { client with stage := .left }) c)
  else none

/-- The loop's third branch: it takes a message and ranges over the clients. -/
def take (h : Hub) (message : Bytes) : Option (Event × Hub) :=
  if h.loop = .waiting then some (.handled message,{ h with loop := .sending message h.clients }) else none

def finish (h : Hub) : Option (Event × Hub) :=
  match h.loop with
  | .sending _ [] => some (.quiet,{ h with loop := .waiting })
  | _ => none

/-- The write pump receives a message, which may fail to go out, or finds its channel closed. -/
def write (h : Hub) (c : ClientRef) (fails : Bool) : Option (Event × Hub) :=
  if (h.client c).writing then
    (h.client c).send.receive.map fun
      | (some message,send) =>
        (.drained c message,h.modify c fun client => { client with send := send, writing := !fails })
      | (none,_) => (.quiet,h.modify c fun client => { client with writing := false })
  else none

inductive ClientAction where
  | serveWs (c : ClientRef)
  | register (c : ClientRef)
  | readError (c : ClientRef)
  | unregister (c : ClientRef)
  | write (c : ClientRef) (fails : Bool)
  deriving DecidableEq, Repr

def clientStep (h : Hub) : ClientAction → Option (Event × Hub)
  | .serveWs c => serveWs h c
  | .register c => register h c
  | .readError c => readError h c
  | .unregister c => unregister h c
  | .write c fails => write h c fails

/-- The message the loop still has to offer to a client. -/
def Hub.owed (h : Hub) (c : ClientRef) : List Bytes :=
  match h.loop with
  | .sending message pending => if c ∈ pending then [message] else []
  | _ => []

/-- What the log tells about one client: it is a member from its registration until its channel
is closed, and its buffer holds what it was given and has not taken out. -/
structure Account (c : ClientRef) (es : List Event) (present : Prop) (client : Client) : Prop where
  fresh : client.stage = .absent ∨ client.stage = .registering → Untold c es ∧ client.send = ⟨256,[],false⟩
  started : client.stage ≠ .absent → client.stage ≠ .registering → .joined c ∈ es
  member : present ↔ .joined c ∈ es ∧ client.send.closed = false
  flow : takenBy c es = drainedBy c es ++ client.send.buffer
  bounded : client.send.capacity = 256 ∧ client.send.buffer.length ≤ 256

structure Roster (es : List Event) (h : Hub) : Prop where
  running : h.loop ≠ .crashed
  calm : .panicked ∉ es
  distinct : h.clients.Nodup
  ranged : ∀ message pending, h.loop = .sending message pending → pending.Nodup ∧ pending ⊆ h.clients
  account : ∀ c, Account c es (c ∈ h.clients) (h.client c)

variable {h h' : Hub} {es : List Event} {e : Event} {c : ClientRef} {present : Prop} {client : Client}

theorem Account.frame (account : Account c es present client) (other : e.names c = false) :
    Account c (es ++ [e]) present client := by
  refine ⟨fun early => ?_,fun late later => ?_,?_,?_,account.bounded⟩
  · obtain ⟨untold,empty⟩ := account.fresh early
    exact ⟨untold.snoc other,empty⟩
  · exact (joined_other other).mpr (account.started late later)
  · rw [joined_other other]
    exact account.member
  · rw [takenBy_append,drainedBy_append,takenBy_other other,drainedBy_other other,List.append_nil,List.append_nil]
    exact account.flow

/-- A step that concerns one client leaves the accounts of the others as they were. -/
theorem Roster.change (roster : Roster es h) (c : ClientRef)
    (others : ∀ d, d ≠ c → h'.client d = h.client d ∧ (d ∈ h'.clients ↔ d ∈ h.clients) ∧ e.names d = false)
    (own : Account c (es ++ [e]) (c ∈ h'.clients) (h'.client c)) :
    ∀ d, Account d (es ++ [e]) (d ∈ h'.clients) (h'.client d) := by
  intro d
  by_cases same : d = c
  · rw [same]
    exact own
  · obtain ⟨client,member,unnamed⟩ := others d same
    rw [client,member]
    exact (roster.account d).frame unnamed

theorem new_roster : Roster [] newHub := by
  refine ⟨by simp [newHub],by simp,by simp [newHub],by simp [newHub],fun c => ⟨?_,?_,?_,?_,?_⟩⟩
  · intro _
    exact ⟨by simp [Untold],rfl⟩
  · intro present
    simp [newHub] at present
  · simp [newHub]
  · rfl
  · simp [newHub]

@[simp] theorem modify_clients (h : Hub) (c : ClientRef) (f : Client → Client) : (h.modify c f).clients = h.clients := rfl

@[simp] theorem modify_loop (h : Hub) (c : ClientRef) (f : Client → Client) : (h.modify c f).loop = h.loop := rfl

@[simp] theorem modify_self (h : Hub) (c : ClientRef) (f : Client → Client) :
    (h.modify c f).client c = f (h.client c) := by
  simp [Hub.modify]

@[simp] theorem modify_other (h : Hub) (f : Client → Client) (differ : d ≠ c) : (h.modify c f).client d = h.client d := by
  simp [Hub.modify,differ]

theorem Roster.quiet (roster : Roster es h) : Roster (es ++ [.quiet]) h :=
  ⟨roster.running,by simp [roster.calm],roster.distinct,roster.ranged,fun c => (roster.account c).frame rfl⟩

theorem Roster.modify (roster : Roster es h) (f : Client → Client)
    (own : Account c es (c ∈ h.clients) (f (h.client c))) : Roster es (h.modify c f) := by
  refine ⟨roster.running,roster.calm,roster.distinct,roster.ranged,fun d => ?_⟩
  by_cases same : d = c
  · subst same
    simpa using own
  · simpa [same] using roster.account d

/-- The read pump only moves on after the registration. -/
theorem Roster.restage (roster : Roster es h) (from' : (h.client c).stage = .reading ∨ (h.client c).stage = .leaving)
    (to' : stage = .leaving ∨ stage = .left) : Roster es (h.modify c fun client => { client with stage := stage }) := by
  have account := roster.account c
  have joined := account.started (by rcases from' with here | here <;> simp [here])
    (by rcases from' with here | here <;> simp [here])
  refine roster.modify _ ⟨?_,fun _ _ => joined,account.member,account.flow,account.bounded⟩
  rcases to' with rfl | rfl <;> simp

theorem serveWs_eq (result : serveWs h c = some (e,h')) : (h.client c).stage = .absent ∧ e = .quiet ∧
    h' = h.modify c fun _ => ⟨⟨256,[],false⟩,.registering,false⟩ := by
  obtain ⟨absent,same⟩ := Option.ite_none_right_eq_some.mp result
  obtain ⟨rfl,rfl⟩ := Prod.mk.inj (Option.some.inj same)
  exact ⟨absent,rfl,rfl⟩

theorem readError_eq (result : readError h c = some (e,h')) : (h.client c).stage = .reading ∧ e = .quiet ∧
    h' = h.modify c fun client => { client with stage := .leaving } := by
  obtain ⟨reading,same⟩ := Option.ite_none_right_eq_some.mp result
  obtain ⟨rfl,rfl⟩ := Prod.mk.inj (Option.some.inj same)
  exact ⟨reading,rfl,rfl⟩

theorem unregister_eq (result : unregister h c = some (e,h')) : h.loop = .waiting ∧ (h.client c).stage = .leaving ∧
    remove (h.modify c fun client => { client with stage := .left }) c = (e,h') := by
  obtain ⟨ready,same⟩ := Option.ite_none_right_eq_some.mp result
  exact ⟨ready.1,ready.2,Option.some.inj same⟩

theorem take_eq (result : take h m = some (e,h')) :
    h.loop = .waiting ∧ e = .handled m ∧ h' = { h with loop := .sending m h.clients } := by
  obtain ⟨waiting,same⟩ := Option.ite_none_right_eq_some.mp result
  obtain ⟨rfl,rfl⟩ := Prod.mk.inj (Option.some.inj same)
  exact ⟨waiting,rfl,rfl⟩

theorem finish_eq (result : finish h = some (e,h')) :
    (∃ m, h.loop = .sending m []) ∧ e = .quiet ∧ h' = { h with loop := .waiting } := by
  simp only [finish] at result
  split at result
  · rename_i m sending
    obtain ⟨rfl,rfl⟩ := Prod.mk.inj (Option.some.inj result)
    exact ⟨⟨m,sending⟩,rfl,rfl⟩
  · simp at result

theorem write_eq (result : write h c fails = some (e,h')) :
    (∃ message rest, (h.client c).send.buffer = message :: rest ∧ e = .drained c message ∧ h' = h.modify c fun client =>
      { client with send := { client.send with buffer := rest }, writing := !fails }) ∨
    e = .quiet ∧ h' = h.modify c fun client => { client with writing := false } := by
  obtain ⟨_,same⟩ := Option.ite_none_right_eq_some.mp result
  obtain ⟨⟨received,send⟩,taken,same⟩ := Option.map_eq_some_iff.mp same
  cases received with
  | some message =>
    obtain ⟨rfl,rfl⟩ := Prod.mk.inj same
    obtain ⟨rest,held,rfl⟩ := Chan.receive_some taken
    exact .inl ⟨message,rest,held,rfl,rfl⟩
  | none =>
    obtain ⟨rfl,rfl⟩ := Prod.mk.inj same
    exact .inr ⟨rfl,rfl⟩

theorem serveWs_roster (roster : Roster es h) (result : serveWs h c = some (e,h')) : Roster (es ++ [e]) h' := by
  obtain ⟨absent,rfl,rfl⟩ := serveWs_eq result
  have account := roster.account c
  obtain ⟨untold,empty⟩ := account.fresh (.inl absent)
  have flow := account.flow
  have member := account.member
  rw [empty] at flow member
  exact (roster.modify _ ⟨fun _ => ⟨untold,rfl⟩,fun _ wrong => absurd rfl wrong,member,flow,by simp⟩).quiet

theorem readError_roster (roster : Roster es h) (result : readError h c = some (e,h')) : Roster (es ++ [e]) h' := by
  obtain ⟨reading,rfl,rfl⟩ := readError_eq result
  exact (roster.restage (.inl reading) (.inl rfl)).quiet

theorem not_joined (untold : Untold c es) : Fanout.Event.joined c ∉ es := by
  intro joined
  have named := untold _ joined
  simp [Fanout.Event.names] at named

/-- A client that registers is new to the hub. -/
theorem Roster.outside (roster : Roster es h) (early : (h.client c).stage = .registering) :
    Untold c es ∧ (h.client c).send = ⟨256,[],false⟩ ∧ c ∉ h.clients := by
  obtain ⟨untold,empty⟩ := (roster.account c).fresh (.inr early)
  exact ⟨untold,empty,fun member => not_joined untold ((roster.account c).member.mp member).1⟩

/-- A client that has not registered has been given nothing. -/
theorem Roster.unknown (roster : Roster es h) (unknown : .joined c ∉ es) : takenBy c es = [] := by
  have account := roster.account c
  have early : (h.client c).stage = .absent ∨ (h.client c).stage = .registering := by
    by_contra late
    rw [not_or] at late
    exact unknown (account.started late.1 late.2)
  exact (account.fresh early).1.takenBy

theorem register_eq (roster : Roster es h) (result : register h c = some (e,h')) :
    h.loop = .waiting ∧ Untold c es ∧ c ∉ h.clients ∧ e = .joined c ∧
      h' = { h with clients := h.clients ++ [c] }.modify c fun client =>
        { client with stage := .reading, writing := true } := by
  simp only [register] at result
  split at result
  · rename_i ready
    obtain ⟨untold,_,outside⟩ := roster.outside ready.2
    obtain ⟨rfl,rfl⟩ := Prod.mk.inj (Option.some.inj result)
    simp [ready.1,untold,outside]
  · simp at result

theorem register_roster (roster : Roster es h) (result : register h c = some (e,h')) : Roster (es ++ [e]) h' := by
  have ready : (h.client c).stage = .registering := by
    simp only [register] at result
    split at result
    · rename_i ready
      exact ready.2
    · simp at result
  obtain ⟨untold,empty,_⟩ := roster.outside ready
  obtain ⟨waiting,_,outside,rfl,rfl⟩ := register_eq roster result
  refine ⟨by simp [waiting],by simp [roster.calm],?_,by simp [waiting],roster.change c ?_ ?_⟩
  · have apart : ∀ d ∈ h.clients, d ≠ c := fun d member => ne_of_mem_of_not_mem member outside
    exact List.nodup_append.mpr ⟨roster.distinct,by simp,by simpa using apart⟩
  · intro d differ
    simp [differ,differ.symm,Fanout.Event.names]
  · refine ⟨by simp,by simp,by simp [empty],?_,by simp [empty]⟩
    rw [takenBy_append,drainedBy_append,untold.takenBy,untold.drainedBy]
    simp [empty,takenBy,drainedBy]

theorem take_roster (roster : Roster es h) (result : take h m = some (e,h')) : Roster (es ++ [e]) h' := by
  obtain ⟨_,rfl,rfl⟩ := take_eq result
  refine ⟨by simp,by simp [roster.calm],roster.distinct,?_,fun c => (roster.account c).frame rfl⟩
  intro message pending same
  obtain ⟨_,rfl⟩ := Loop.sending.inj same
  exact ⟨roster.distinct,List.Subset.refl _⟩

theorem finish_roster (roster : Roster es h) (result : finish h = some (e,h')) : Roster (es ++ [e]) h' := by
  obtain ⟨_,rfl,rfl⟩ := finish_eq result
  exact Roster.quiet ⟨by simp,roster.calm,roster.distinct,by simp,roster.account⟩

/-- The loop closes a channel only while its client is in the map, so never a closed one. -/
theorem remove_eq (roster : Roster es h) (c : ClientRef) :
    remove h c = if c ∈ h.clients then
        (.left c,{ h with clients := h.clients.erase c }.modify c fun client =>
          { client with send := { client.send with closed := true } })
      else (.quiet,h) := by
  simp only [remove]
  split
  · rename_i member
    have unclosed := ((roster.account c).member.mp member).2
    simp [Chan.close,unclosed,Hub.modify]
  · rfl

theorem remove_roster (roster : Roster es h) (waiting : h.loop = .waiting) (c : ClientRef) :
    Roster (es ++ [(remove h c).1]) (remove h c).2 := by
  rw [remove_eq roster]
  split
  · rename_i member
    have account := roster.account c
    have joined := (account.member.mp member).1
    have started : (h.client c).stage ≠ .absent ∧ (h.client c).stage ≠ .registering := by
      constructor <;> intro early
      · exact not_joined (account.fresh (.inl early)).1 joined
      · exact not_joined (account.fresh (.inr early)).1 joined
    refine ⟨by simp [waiting],by simp [roster.calm],roster.distinct.erase c,by simp [waiting],roster.change c ?_ ?_⟩
    · intro d differ
      simp [differ,differ.symm,Fanout.Event.names,List.mem_erase_of_ne differ]
    · refine ⟨by simp [started.1,started.2],by simp [joined],?_,?_,by simpa using account.bounded⟩
      · simp [roster.distinct.mem_erase_iff]
      · simpa [takenBy_append,drainedBy_append,takenBy,drainedBy] using account.flow
  · exact roster.quiet

theorem unregister_roster (roster : Roster es h) (result : unregister h c = some (e,h')) : Roster (es ++ [e]) h' := by
  obtain ⟨waiting,leaving,same⟩ := unregister_eq result
  have removed := remove_roster (roster.restage (.inr leaving) (.inr rfl)) waiting c
  rw [same] at removed
  exact removed

theorem write_roster (roster : Roster es h) (result : write h c fails = some (e,h')) : Roster (es ++ [e]) h' := by
  have account := roster.account c
  rcases write_eq result with ⟨message,rest,held,rfl,rfl⟩ | ⟨rfl,rfl⟩
  · refine ⟨roster.running,by simp [roster.calm],roster.distinct,roster.ranged,roster.change c ?_ ?_⟩
    · intro d differ
      simp [differ,differ.symm,Fanout.Event.names]
    · refine ⟨fun early => ?_,?_,?_,?_,?_⟩
      · have empty := (account.fresh (by simpa using early)).2
        simp [empty] at held
      · simpa using account.started
      · simpa using account.member
      · have flow := account.flow
        rw [held] at flow
        simpa [takenBy_append,drainedBy_append,takenBy,drainedBy] using flow
      · have bounded := account.bounded
        rw [held,List.length_cons] at bounded
        simp only [modify_self]
        exact ⟨bounded.1,by omega⟩
  · exact (roster.modify _ ⟨account.fresh,account.started,account.member,account.flow,account.bounded⟩).quiet

theorem erase_subset_nodup (roster : Roster es h) (sending : h.loop = .sending message pending) (c : ClientRef) :
    (pending.erase c).Nodup ∧ c ∉ pending.erase c ∧ pending.erase c ⊆ h.clients := by
  obtain ⟨distinct,inside⟩ := roster.ranged message pending sending
  exact ⟨distinct.erase c,distinct.not_mem_erase,fun d member => inside (List.mem_of_mem_erase member)⟩

/-- A message goes into the buffer of a client that is being offered it. -/
def Hub.give (h : Hub) (c : ClientRef) (message : Bytes) (pending : List ClientRef) : Hub :=
  { h with loop := .sending message (pending.erase c) }.modify c fun client =>
    { client with send := { client.send with buffer := client.send.buffer ++ [message] } }

theorem Roster.give (roster : Roster es h) (sending : h.loop = .sending message pending) (offered : c ∈ pending)
    (room : (h.client c).send.buffer.length < 256) : Roster (es ++ [.taken c message]) (h.give c message pending) := by
  have account := roster.account c
  have member := (roster.ranged message pending sending).2 offered
  have joined := (account.member.mp member).1
  obtain ⟨distinct,_,inside⟩ := erase_subset_nodup roster sending c
  refine ⟨by simp [Hub.give],by simp [roster.calm],roster.distinct,?_,roster.change c ?_ ?_⟩
  · rintro message' pending' same
    obtain ⟨_,rfl⟩ := Loop.sending.inj same
    exact ⟨distinct,inside⟩
  · intro d differ
    simp [Hub.give,differ,differ.symm,Fanout.Event.names]
  · refine ⟨fun early => ?_,?_,?_,?_,?_⟩
    · exact absurd joined (not_joined (account.fresh (by simpa [Hub.give] using early)).1)
    · simp [joined]
    · simpa [Hub.give] using account.member
    · rw [takenBy_append,drainedBy_append,account.flow]
      simp [takenBy,drainedBy,Hub.give]
    · have bounded := account.bounded
      simp only [Hub.give,modify_self,List.length_append,List.length_singleton]
      exact ⟨bounded.1,by omega⟩

/-- Clients in the map are given every broadcast, except those that are away: they have missed
one and get nothing more, like the clients that are gone. -/
structure Delivery (away : ClientRef → Prop) (es : List Event) (h : Hub) : Prop where
  serves : ∀ c, c ∈ h.clients → ¬away c → Inside c es (h.owed c)
  ends : ∀ c, .joined c ∈ es → (c ∈ h.clients → away c) → Ended 256 c es

variable {away : ClientRef → Prop}

theorem new_delivery (away : ClientRef → Prop) : Delivery away [] newHub := ⟨by simp [newHub],by simp⟩

theorem owed_waiting (waiting : h.loop = .waiting) (c : ClientRef) : h.owed c = [] := by
  simp [Hub.owed,waiting]

/-- Events that give, move and broadcast nothing. -/
theorem Delivery.pass (delivery : Delivery away es h) (still : ∀ c, e.moves c = false)
    (nothing : ∀ c, takenBy c [e] = []) (silent : handled [e] = []) (members : h'.clients = h.clients)
    (owes : ∀ c, h'.owed c = h.owed c) : Delivery away (es ++ [e]) h' := by
  have fresh c : e ≠ .joined c := by
    rintro rfl
    simpa [Fanout.Event.moves] using still c
  refine ⟨fun c member here => ?_,fun c joined gone => ?_⟩
  · rw [members] at member
    rw [owes]
    exact (delivery.serves c member here).snoc (still c) (by simp [silent,nothing])
  · rw [members] at gone
    have earlier : Fanout.Event.joined c ∈ es := by simpa [(fresh c).symm] using joined
    exact (delivery.ends c earlier gone).snoc (nothing c) (fresh c)

theorem serveWs_delivers (delivery : Delivery away es h) (result : serveWs h c = some (e,h')) :
    Delivery away (es ++ [e]) h' := by
  obtain ⟨_,rfl,rfl⟩ := serveWs_eq result
  exact delivery.pass (fun _ => rfl) (fun _ => rfl) rfl rfl (fun _ => rfl)

theorem readError_delivers (delivery : Delivery away es h) (result : readError h c = some (e,h')) :
    Delivery away (es ++ [e]) h' := by
  obtain ⟨_,rfl,rfl⟩ := readError_eq result
  exact delivery.pass (fun _ => rfl) (fun _ => rfl) rfl rfl (fun _ => rfl)

theorem finish_delivers (delivery : Delivery away es h) (result : finish h = some (e,h')) :
    Delivery away (es ++ [e]) h' := by
  obtain ⟨⟨_,sending⟩,rfl,rfl⟩ := finish_eq result
  exact delivery.pass (fun _ => rfl) (fun _ => rfl) rfl rfl (fun _ => by simp [Hub.owed,sending])

theorem write_delivers (delivery : Delivery away es h) (result : write h c fails = some (e,h')) :
    Delivery away (es ++ [e]) h' := by
  rcases write_eq result with ⟨message,rest,_,rfl,rfl⟩ | ⟨rfl,rfl⟩ <;>
    exact delivery.pass (fun _ => rfl) (fun _ => rfl) rfl rfl (fun _ => rfl)

theorem register_delivers (roster : Roster es h) (delivery : Delivery away es h)
    (new : ∀ c, Untold c es → ¬away c) (result : register h c = some (e,h')) : Delivery away (es ++ [e]) h' := by
  obtain ⟨waiting,untold,outside,rfl,rfl⟩ := register_eq roster result
  refine ⟨fun d member here => ?_,fun d joined gone => ?_⟩
  · rw [owed_waiting (by simp [waiting])]
    by_cases same : d = c
    · subst same
      exact untold.join
    · have inside := delivery.serves d (by simpa [same] using member) here
      rw [owed_waiting waiting] at inside
      exact inside.snoc (by simp [Fanout.Event.moves,Ne.symm same]) rfl
  · by_cases same : d = c
    · subst same
      exact absurd (gone (by simp)) (new d untold)
    · exact (delivery.ends d (by simpa [same] using joined) (by simpa [same] using gone)).snoc rfl
        (by simp [Ne.symm same])

theorem take_delivers (delivery : Delivery away es h) (result : take h m = some (e,h')) :
    Delivery away (es ++ [e]) h' := by
  obtain ⟨waiting,rfl,rfl⟩ := take_eq result
  refine ⟨fun c member here => ?_,fun c joined gone => ?_⟩
  · have inside := delivery.serves c member here
    rw [owed_waiting waiting] at inside
    have owes : ({ h with loop := .sending m h.clients } : Hub).owed c = [m] := by
      simpa [Hub.owed] using member
    rw [owes]
    exact inside.snoc rfl rfl
  · exact (delivery.ends c (by simpa using joined) gone).snoc rfl (by simp)

theorem remove_delivers (roster : Roster es h) (delivery : Delivery away es h) (waiting : h.loop = .waiting)
    (c : ClientRef) : Delivery away (es ++ [(remove h c).1]) (remove h c).2 := by
  rw [remove_eq roster]
  split
  · rename_i member
    refine ⟨fun d inside here => ?_,fun d joined gone => ?_⟩
    · simp only [modify_clients,roster.distinct.mem_erase_iff] at inside
      have served := delivery.serves d inside.2 here
      rw [owed_waiting waiting] at served
      rw [owed_waiting (by simp [waiting])]
      exact served.snoc (by simp [Fanout.Event.moves,inside.1.symm]) rfl
    · have joined' : Fanout.Event.joined d ∈ es := by simpa using joined
      by_cases served : d ∈ h.clients ∧ ¬away d
      · have same : d = c := by
          by_contra differ
          exact served.2 (gone (by simpa [List.mem_erase_of_ne differ] using served.1))
        subst same
        have inside := delivery.serves d served.1 served.2
        rw [owed_waiting waiting] at inside
        exact inside.leave 256
      · have gone' : d ∈ h.clients → away d := by simpa using served
        exact (delivery.ends d joined' gone').snoc rfl (by simp)
  · exact delivery.pass (fun _ => rfl) (fun _ => rfl) rfl rfl (fun _ => rfl)

theorem unregister_delivers (roster : Roster es h) (delivery : Delivery away es h)
    (result : unregister h c = some (e,h')) : Delivery away (es ++ [e]) h' := by
  obtain ⟨waiting,leaving,same⟩ := unregister_eq result
  have removed := remove_delivers (roster.restage (.inr leaving) (.inr rfl)) ⟨delivery.serves,delivery.ends⟩ waiting c
  rw [same] at removed
  exact removed

theorem clientStep_roster (roster : Roster es h) (a : ClientAction) (result : clientStep h a = some (e,h')) :
    Roster (es ++ [e]) h' := by
  cases a with
  | serveWs c => exact serveWs_roster roster result
  | register c => exact register_roster roster result
  | readError c => exact readError_roster roster result
  | unregister c => exact unregister_roster roster result
  | write c fails => exact write_roster roster result

theorem remove_members (roster : Roster es h) (c : ClientRef) :
    (∀ d m, (remove h c).1 ≠ .skipped d m) ∧ ∀ d ∈ (remove h c).2.clients, d ∈ h.clients ∧ d ≠ c := by
  rw [remove_eq roster]
  split
  · simp [roster.distinct.mem_erase_iff,and_comm]
  · rename_i outside
    refine ⟨by simp,fun d member => ⟨member,?_⟩⟩
    rintro rfl
    exact outside member

/-- Nothing is missed in a step of a client, and only a new client comes in. -/
theorem clientStep_members (roster : Roster es h) (a : ClientAction) (result : clientStep h a = some (e,h')) :
    (∀ c m, e ≠ .skipped c m) ∧ ∀ d ∈ h'.clients, d ∈ h.clients ∨ Untold d es := by
  cases a with
  | serveWs c =>
    obtain ⟨_,rfl,rfl⟩ := serveWs_eq result
    exact ⟨by simp,fun d member => .inl member⟩
  | register c =>
    obtain ⟨_,untold,_,rfl,rfl⟩ := register_eq roster result
    refine ⟨by simp,fun d member => ?_⟩
    rcases List.mem_append.mp member with old | new
    · exact .inl old
    · rw [List.mem_singleton.mp new]
      exact .inr untold
  | readError c =>
    obtain ⟨_,rfl,rfl⟩ := readError_eq result
    exact ⟨by simp,fun d member => .inl member⟩
  | unregister c =>
    obtain ⟨_,leaving,same⟩ := unregister_eq result
    obtain ⟨unskipped,members⟩ := remove_members (roster.restage (.inr leaving) (.inr rfl)) c
    rw [same] at unskipped members
    exact ⟨unskipped,fun d member => .inl (members d member).1⟩
  | write c fails =>
    rcases write_eq result with ⟨message,rest,_,rfl,rfl⟩ | ⟨rfl,rfl⟩ <;>
      exact ⟨by simp,fun d member => .inl member⟩

theorem clientStep_delivers (roster : Roster es h) (delivery : Delivery away es h) (new : ∀ c, Untold c es → ¬away c)
    (a : ClientAction) (result : clientStep h a = some (e,h')) : Delivery away (es ++ [e]) h' := by
  cases a with
  | serveWs c => exact serveWs_delivers delivery result
  | register c => exact register_delivers roster delivery new result
  | readError c => exact readError_delivers delivery result
  | unregister c => exact unregister_delivers roster delivery result
  | write c fails => exact write_delivers delivery result

theorem owed_erase (sending : h.loop = .sending message pending) (sending' : h'.loop = .sending message (pending.erase c))
    (differ : d ≠ c) : h'.owed d = h.owed d := by
  simp [Hub.owed,sending,sending',List.mem_erase_of_ne differ]

theorem give_delivers (roster : Roster es h) (delivery : Delivery away es h)
    (sending : h.loop = .sending message pending) (offered : c ∈ pending) (here : ¬away c) :
    Delivery away (es ++ [.taken c message]) (h.give c message pending) := by
  obtain ⟨_,last,_⟩ := erase_subset_nodup roster sending c
  have member := (roster.ranged message pending sending).2 offered
  have own := delivery.serves c member here
  rw [show h.owed c = [message] by simp [Hub.owed,sending,offered]] at own
  refine ⟨fun d inside stays => ?_,fun d joined gone => ?_⟩
  · by_cases same : d = c
    · subst same
      rw [show (h.give d message pending).owed d = [] by simp [Hub.owed,Hub.give,last]]
      exact own.snoc rfl (by simp [handled,takenBy])
    · rw [owed_erase sending rfl same]
      exact (delivery.serves d inside stays).snoc rfl (by simp [handled,takenBy,Ne.symm same])
  · have differ : d ≠ c := by
      rintro rfl
      exact here (gone member)
    exact (delivery.ends d (by simpa using joined) gone).snoc (by simp [takenBy,differ.symm]) (by simp)

/-- A client whose buffer is full misses the message and is not served any more, whether it is
taken out of the map or only counts as away. -/
theorem skip_delivers (roster : Roster es h) (delivery : Delivery away es h)
    (sending : h.loop = .sending message pending) (offered : c ∈ pending)
    (full : ¬(h.client c).send.buffer.length < 256) (sending' : h'.loop = .sending message (pending.erase c))
    (members : ∀ d, d ≠ c → (d ∈ h'.clients ↔ d ∈ h.clients)) (others : ∀ d, d ≠ c → (away' d ↔ away d))
    (out : c ∈ h'.clients → away' c) : Delivery away' (es ++ [.skipped c message]) h' := by
  have account := roster.account c
  have member := (roster.ranged message pending sending).2 offered
  refine ⟨fun d inside stays => ?_,fun d joined gone => ?_⟩
  · have differ : d ≠ c := by
      rintro rfl
      exact stays (out inside)
    rw [owed_erase sending sending' differ]
    exact (delivery.serves d ((members d differ).mp inside) (fun gone => stays ((others d differ).mpr gone))).snoc
      (by simp [Fanout.Event.moves,differ.symm]) (by simp [handled,takenBy])
  · by_cases same : d = c
    · subst same
      by_cases missed : away d
      · exact (delivery.ends d (by simpa using joined) fun _ => missed).snoc rfl (by simp)
      · have own := delivery.serves d member missed
        rw [show h.owed d = [message] by simp [Hub.owed,sending,offered]] at own
        apply own.skip
        have bounded := account.bounded.2
        have flow := congrArg List.length account.flow
        rw [List.length_append] at flow
        omega
    · refine (delivery.ends d (by simpa using joined) fun inside => ?_).snoc (by simp [takenBy]) (by simp)
      exact (others d same).mp (gone ((members d same).mpr inside))

end TradingPlatform.Websocket
