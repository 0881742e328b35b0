import TradingPlatform.FixReplies
import TradingPlatform.Runs

/-! The server of `pkg/fix/session.go`: the accept loop of `Start`, the goroutine that waits for the
context, and a handler for every connection. `Start` sets `active` without the lock and after the
socket is bound, so that a call of `Stop` may come in between. -/
namespace TradingPlatform.Fix.Server

open Text Runs

inductive Listener where
  | none
  | listening
  | closed
  deriving DecidableEq, Repr

/-- Where `Start` is: not yet called, before it sets `active`, in `Accept`, before it looks at
`active` after an error, or back with its result. -/
inductive Stage where
  | idle
  | bound
  | accepting
  | failed
  | returned (err : Option Bytes)
  deriving DecidableEq, Repr

/-- Where a handler is: at its select, in `Read`, or gone. -/
inductive Phase where
  | looking
  | reading
  | ended
  deriving DecidableEq, Repr

structure Conn where
  phase : Phase
  session : Session

structure SessionServer where
  port : Bytes
  listener : Listener
  active : Bool
  stage : Stage
  watching : Bool
  cancelled : Bool
  conns : List Conn

def newSessionServer (port : Bytes) : SessionServer := ⟨port,.none,false,.idle,false,false,[]⟩

def newConn : Conn := ⟨.looking,⟨newMessage,1,[]⟩⟩

/-- `Stop` holds the lock from its first line to its last. -/
def SessionServer.stop (s : SessionServer) : SessionServer :=
  { s with active := false, listener := if s.listener = .none then .none else .closed }

inductive Action where
  | listen (err : Option Bytes)
  | activate
  | accept
  | acceptError
  | checkActive
  | cancel
  | ctxStop
  | stop
  | look (k : Nat)
  | read (k : Nat) (data : Option Bytes)
  deriving DecidableEq, Repr

inductive Event where
  | bound
  | activated
  | accepted
  | stopped
  | cancelled
  | received (k : Nat) (data : Bytes)
  | quiet
  deriving DecidableEq, Repr

def SessionServer.setConn (s : SessionServer) (k : Nat) (c : Conn) : SessionServer := { s with conns := s.conns.set k c }

/-- One round of `handleConnection` up to its read. -/
def look (s : SessionServer) (k : Nat) (c : Conn) : Option (Event × SessionServer) :=
  if c.phase = .looking then
    if s.cancelled then some (.quiet,s.setConn k { c with phase := .ended })
    else some (.quiet,s.setConn k { c with phase := .reading })
  else none

/-- The rest of the round. A read that fails is a client that has gone or the deadline. -/
def read (clock : Nat → Nat → Stamp) (s : SessionServer) (k : Nat) (c : Conn) (data : Option Bytes) :
    Option (Event × SessionServer) :=
  if c.phase = .reading then
    match data with
    | none => some (.quiet,s.setConn k { c with phase := .ended })
    | some data =>
      if data ≠ [] ∧ data.length ≤ 4096 then
        (handleRead (clock k) c.session data).map fun session => (.received k data,s.setConn k ⟨.looking,session⟩)
      else none
  else none

def step (clock : Nat → Nat → Stamp) (s : SessionServer) : Action → Option (Event × SessionServer)
  | .listen err =>
    if s.stage = .idle then
      match err with
      | none => some (.bound,{ s with listener := .listening, stage := .bound })
      | some err =>
        let message := ascii "failed to bind FIX server to port " ++ s.port ++ ascii ": " ++ err
        some (.quiet,{ s with stage := .returned (some message) })
    else none
  | .activate =>
    if s.stage = .bound then some (.activated,{ s with active := true, stage := .accepting, watching := true }) else none
  | .accept =>
    if s.stage = .accepting ∧ s.listener = .listening then some (.accepted,{ s with conns := s.conns ++ [newConn] })
    else none
  | .acceptError =>
    -- a socket that is open may fail as well
    if s.stage = .accepting then some (.quiet,{ s with stage := .failed }) else none
  | .checkActive =>
    if s.stage = .failed then
      if s.active then some (.quiet,{ s with stage := .accepting }) else some (.quiet,{ s with stage := .returned none })
    else none
  | .cancel => if s.cancelled then none else some (.cancelled,{ s with cancelled := true })
  | .ctxStop => if s.watching ∧ s.cancelled then some (.stopped,{ s.stop with watching := false }) else none
  | .stop => some (.stopped,s.stop)
  | .look k => (s.conns[k]?).bind (look s k)
  | .read k data => (s.conns[k]?).bind fun c => read clock s k c data

/-- Everything a step can be. -/
inductive Moves (clock : Nat → Nat → Stamp) (s : SessionServer) : Action → Event → SessionServer → Prop
  | bind (before : s.stage = .idle) :
      Moves clock s (.listen none) .bound { s with listener := .listening, stage := .bound }
  | refuse (before : s.stage = .idle) : Moves clock s (.listen (some err)) .quiet
      { s with stage := .returned (some (ascii "failed to bind FIX server to port " ++ s.port ++ ascii ": " ++ err)) }
  | activate (before : s.stage = .bound) :
      Moves clock s .activate .activated { s with active := true, stage := .accepting, watching := true }
  | accept (before : s.stage = .accepting) (opened : s.listener = .listening) :
      Moves clock s .accept .accepted { s with conns := s.conns ++ [newConn] }
  | fail (before : s.stage = .accepting) : Moves clock s .acceptError .quiet { s with stage := .failed }
  | retry (before : s.stage = .failed) (goes : s.active = true) :
      Moves clock s .checkActive .quiet { s with stage := .accepting }
  | exit (before : s.stage = .failed) (ends : s.active = false) :
      Moves clock s .checkActive .quiet { s with stage := .returned none }
  | cancel (before : s.cancelled = false) : Moves clock s .cancel .cancelled { s with cancelled := true }
  | ctxStop (before : s.cancelled = true) : Moves clock s .ctxStop .stopped { s.stop with watching := false }
  | stop : Moves clock s .stop .stopped s.stop
  | await (found : s.conns[k]? = some ⟨.looking,session⟩) (goes : s.cancelled = false) :
      Moves clock s (.look k) .quiet (s.setConn k ⟨.reading,session⟩)
  | leave (found : s.conns[k]? = some ⟨.looking,session⟩) (ends : s.cancelled = true) :
      Moves clock s (.look k) .quiet (s.setConn k ⟨.ended,session⟩)
  | hangUp (found : s.conns[k]? = some ⟨.reading,session⟩) :
      Moves clock s (.read k none) .quiet (s.setConn k ⟨.ended,session⟩)
  | receive (found : s.conns[k]? = some ⟨.reading,session⟩)
      (handled : handleRead (clock k) session data = some session') :
      Moves clock s (.read k (some data)) (.received k data) (s.setConn k ⟨.looking,session'⟩)

theorem listen_moves (result : step clock s (.listen err) = some (e,s')) : Moves clock s (.listen err) e s' := by
  simp only [step] at result
  split at result
  · rename_i before
    cases err with
    | none =>
      cases result
      exact .bind before
    | some err =>
      cases result
      exact .refuse before
  · cases result

theorem activate_moves (result : step clock s .activate = some (e,s')) : Moves clock s .activate e s' := by
  simp only [step] at result
  split at result
  · rename_i before
    cases result
    exact .activate before
  · cases result

theorem accept_moves (result : step clock s .accept = some (e,s')) : Moves clock s .accept e s' := by
  simp only [step] at result
  split at result
  · rename_i before
    cases result
    exact .accept before.1 before.2
  · cases result

theorem acceptError_moves (result : step clock s .acceptError = some (e,s')) : Moves clock s .acceptError e s' := by
  simp only [step] at result
  split at result
  · rename_i before
    cases result
    exact .fail before
  · cases result

theorem checkActive_moves (result : step clock s .checkActive = some (e,s')) : Moves clock s .checkActive e s' := by
  simp only [step] at result
  split at result
  · rename_i before
    split at result
    · rename_i goes
      cases result
      exact .retry before goes
    · rename_i ends
      cases result
      exact .exit before (Bool.eq_false_iff.mpr ends)
  · cases result

theorem cancel_moves (result : step clock s .cancel = some (e,s')) : Moves clock s .cancel e s' := by
  simp only [step] at result
  split at result
  · cases result
  · rename_i before
    cases result
    exact .cancel (Bool.eq_false_iff.mpr before)

theorem ctxStop_moves (result : step clock s .ctxStop = some (e,s')) : Moves clock s .ctxStop e s' := by
  simp only [step] at result
  split at result
  · rename_i before
    cases result
    exact .ctxStop before.2
  · cases result

theorem stop_moves (result : step clock s .stop = some (e,s')) : Moves clock s .stop e s' := by
  cases result
  exact .stop

theorem look_moves (result : step clock s (.look k) = some (e,s')) : Moves clock s (.look k) e s' := by
  obtain ⟨⟨phase,session⟩,found,result⟩ := Option.bind_eq_some_iff.mp result
  simp only [look] at result
  split at result
  · rename_i before
    subst before
    split at result
    · rename_i ends
      cases result
      exact .leave found ends
    · rename_i goes
      cases result
      exact .await found (Bool.eq_false_iff.mpr goes)
  · cases result

theorem read_moves (result : step clock s (.read k data) = some (e,s')) : Moves clock s (.read k data) e s' := by
  obtain ⟨⟨phase,session⟩,found,result⟩ := Option.bind_eq_some_iff.mp result
  simp only [read] at result
  split at result
  · rename_i before
    subst before
    cases data with
    | none =>
      cases result
      exact .hangUp found
    | some data =>
      simp only at result
      split at result
      · obtain ⟨session',handled,same⟩ := Option.map_eq_some_iff.mp result
        cases same
        exact .receive found handled
      · cases result
  · cases result

theorem step_moves (result : step clock s a = some (e,s')) : Moves clock s a e s' := by
  cases a with
  | listen err => exact listen_moves result
  | activate => exact activate_moves result
  | accept => exact accept_moves result
  | acceptError => exact acceptError_moves result
  | checkActive => exact checkActive_moves result
  | cancel => exact cancel_moves result
  | ctxStop => exact ctxStop_moves result
  | stop => exact stop_moves result
  | look k => exact look_moves result
  | read k data => exact read_moves result

/-- What a connection has received. -/
def readsOf (k : Nat) (es : List Event) : List Bytes :=
  es.filterMap fun | .received k' data => if k' = k then some data else none | _ => none

theorem readsOf_append (k : Nat) (es es' : List Event) : readsOf k (es ++ es') = readsOf k es ++ readsOf k es' :=
  List.filterMap_append

/-- Every session is what its own reads make of a new one. -/
structure Apart (clock : Nat → Nat → Stamp) (es : List Event) (s : SessionServer) : Prop where
  own : ∀ (k : Nat) (c : Conn), s.conns[k]? = some c →
    (readsOf k es).foldlM (handleRead (clock k)) newConn.session = some c.session
  fresh : ∀ k, s.conns.length ≤ k → readsOf k es = []

/-- Steps that are no reads. -/
theorem Apart.quiet (apart : Apart clock es s) (silent : ∀ k, readsOf k [e] = [])
    (same : ∀ k : Nat, (s'.conns[k]?).map Conn.session = (s.conns[k]?).map Conn.session) :
    Apart clock (es ++ [e]) s' := by
  refine ⟨fun k c found => ?_,fun k outside => ?_⟩
  · have before := same k
    rw [found,Option.map_some] at before
    obtain ⟨c',found',session⟩ := Option.map_eq_some_iff.mp before.symm
    rw [readsOf_append,silent,List.append_nil,← session]
    exact apart.own k c' found'
  · rw [readsOf_append,silent,List.append_nil]
    have before := same k
    rw [List.getElem?_eq_none outside,Option.map_none] at before
    exact apart.fresh k (List.getElem?_eq_none_iff.mp (Option.map_eq_none_iff.mp before.symm))

theorem setConn_session {s : SessionServer} (found : s.conns[k]? = some ⟨phase,session⟩) (phase' : Phase) (j : Nat) :
    ((s.setConn k ⟨phase',session⟩).conns[j]?).map Conn.session = (s.conns[j]?).map Conn.session := by
  have inside := (List.getElem?_eq_some_iff.mp found).1
  rw [SessionServer.setConn]
  by_cases own : k = j
  · subst own
    rw [List.getElem?_set_self inside,found]
    rfl
  · rw [List.getElem?_set_ne own]

theorem Apart.step (apart : Apart clock es s) (moves : Moves clock s a e s') : Apart clock (es ++ [e]) s' := by
  cases moves with
  | accept before opened =>
    refine ⟨fun k c found => ?_,fun k outside => ?_⟩
    · rw [readsOf_append,show readsOf k [.accepted] = [] from rfl,List.append_nil]
      by_cases old : k < s.conns.length
      · exact apart.own k c ((List.getElem?_append_left old).symm.trans found)
      · have new := (List.getElem?_append_right (Nat.not_lt.mp old)).symm.trans found
        rw [List.mem_singleton.mp (List.mem_of_getElem? new),apart.fresh k (Nat.not_lt.mp old)]
        rfl
    · rw [readsOf_append,show readsOf k [.accepted] = [] from rfl,List.append_nil]
      rw [List.length_append] at outside
      exact apart.fresh k (by omega)
  | receive found handled =>
    rename_i k session data session'
    have inside := (List.getElem?_eq_some_iff.mp found).1
    have others {j : Nat} (other : k ≠ j) : readsOf j (es ++ [.received k data]) = readsOf j es := by
      rw [readsOf_append]
      simp [readsOf,other]
    refine ⟨fun j c there => ?_,fun j outside => ?_⟩
    · by_cases own : k = j
      · subst own
        obtain rfl := Option.some.inj ((List.getElem?_set_self inside).symm.trans there)
        have last : readsOf k [.received k data] = [data] := by simp [readsOf]
        rw [readsOf_append,last,List.foldlM_append,apart.own k _ found]
        simpa using handled
      · rw [others own]
        exact apart.own j c ((List.getElem?_set_ne own).symm.trans there)
    · rw [SessionServer.setConn,List.length_set] at outside
      rw [others (by omega)]
      exact apart.fresh j outside
  | await found _ | leave found _ | hangUp found => exact apart.quiet (fun _ => rfl) (setConn_session found _)
  | _ => exact apart.quiet (fun _ => rfl) (fun _ => rfl)

/-- Sessions do not meet: what is written to one connection is what its own packets are answered
with, whatever the others send and however the server is stopped. -/
theorem sessions_apart (actions : List Action) (result : run (step clock) actions (newSessionServer port) = some (es,s))
    {c : Conn} (found : s.conns[k]? = some c) :
    handleConnection (clock k) (readsOf k es) = some c.session.written ∧
      c.session.written = replies (clock k) ((readsOf k es).filterMap fieldsOf) := by
  have start : Apart clock [] (newSessionServer port) := ⟨by simp [newSessionServer],fun _ _ => rfl⟩
  have apart := run_preserves (Apart clock) (fun _ _ _ _ _ before taken => before.step (step_moves taken)) actions
    [] start result
  have alone : handleConnection (clock k) (readsOf k es) = some c.session.written := by
    rw [handleConnection]
    exact congrArg _ (apart.own k c found)
  exact ⟨alone,Option.some.inj (alone.symm.trans (handleConnection_replies (clock k) (readsOf k es)))⟩

/-- Two clients, one of them in its read when the context ends, and a third that comes too late. -/
def serverDay : List Action :=
  [.listen none,.activate,.accept,.accept,.look 0,.look 1,.read 1 (some briefOrderSingle),.cancel,.accept,
    .read 0 (some briefOrderSingle),.look 0,.look 2,.ctxStop]

theorem serverDay_runs : ∃ es s later t,
    run (step fun _ => fixedClock) (serverDay.take 8) (newSessionServer (ascii "9")) = some (es,s) ∧
    s.cancelled = true ∧ readsOf 1 es = [briefOrderSingle] ∧ (∃ c, s.conns[1]? = some c) ∧
    run (step fun _ => fixedClock) (serverDay.drop 8) s = some (later,t) ∧ readsOf 0 later = [briefOrderSingle] ∧
    readsOf 2 later = [] :=
  ⟨_,_,_,_,rfl,rfl,rfl,⟨_,rfl⟩,rfl,rfl,rfl⟩

/-- The second client has its reply while the first has sent nothing. -/
theorem serverDay_apart : ∃ es s c,
    run (step fun _ => fixedClock) (serverDay.take 8) (newSessionServer (ascii "9")) = some (es,s) ∧
    readsOf 1 es = [briefOrderSingle] ∧ s.conns[1]? = some c ∧
    handleConnection fixedClock (readsOf 1 es) = some c.session.written ∧
      c.session.written = replies fixedClock ((readsOf 1 es).filterMap fieldsOf) := by
  obtain ⟨es,s,_,_,result,_,received,⟨c,found⟩,_⟩ := serverDay_runs
  exact ⟨es,s,c,result,received,found,sessions_apart (serverDay.take 8) result found⟩

/-- One for a handler that is in its read. -/
def inRead (s : SessionServer) (k : Nat) : Nat := if (s.conns[k]?).any (·.phase = .reading) then 1 else 0

theorem inRead_setConn {s : SessionServer} (inside : k < s.conns.length) (c : Conn) (j : Nat) :
    inRead (s.setConn k c) j = if k = j then (if c.phase = .reading then 1 else 0) else inRead s j := by
  rw [inRead,SessionServer.setConn]
  by_cases own : k = j
  · subst own
    rw [List.getElem?_set_self inside,if_pos rfl]
    simp
  · rw [List.getElem?_set_ne own,if_neg own]
    rfl

/-- Once the context is over, a read is the last of its handler. -/
theorem cancelled_step (cancelled : s.cancelled = true) (moves : Moves clock s a e s') (k : Nat) :
    s'.cancelled = true ∧ (readsOf k [e]).length + inRead s' k ≤ inRead s k := by
  cases moves with
  | accept before opened =>
    refine ⟨cancelled,?_⟩
    rw [show readsOf k [.accepted] = [] from rfl,List.length_nil,Nat.zero_add,inRead,inRead]
    by_cases old : k < s.conns.length
    · rw [List.getElem?_append_left old]
    · rw [List.getElem?_append_right (Nat.not_lt.mp old)]
      cases k - s.conns.length <;> simp [newConn]
  | cancel before => simp [cancelled] at before
  | await found goes => simp [cancelled] at goes
  | leave found _ | hangUp found =>
    refine ⟨cancelled,?_⟩
    rw [inRead_setConn (List.getElem?_eq_some_iff.mp found).1,show readsOf k [.quiet] = [] from rfl]
    split <;> simp
  | receive found handled =>
    rename_i j session data session'
    refine ⟨cancelled,?_⟩
    rw [inRead_setConn (List.getElem?_eq_some_iff.mp found).1]
    by_cases own : j = k
    · subst own
      simp [readsOf,inRead,found]
    · simp [readsOf,own]
  | _ => exact ⟨cancelled,(Nat.zero_add (inRead s k)).le⟩

/-- After the context is over a handler answers at most the one read it is waiting for, and a
connection that is accepted then is not read at all. -/
theorem one_last_read (actions : List Action) (cancelled : s.cancelled = true)
    (result : run (step clock) actions s = some (es,t)) (k : Nat) :
    (readsOf k es).length ≤ 1 ∧ (readsOf k es ≠ [] → ∃ c, s.conns[k]? = some c ∧ c.phase = .reading) := by
  have kept := run_preserves (fun es t => t.cancelled = true ∧ (readsOf k es).length + inRead t k ≤ inRead s k)
    (fun es t a e t' before taken => by
      obtain ⟨still,bound⟩ := cancelled_step before.1 (step_moves taken) k
      refine ⟨still,?_⟩
      rw [readsOf_append,List.length_append]
      omega) actions [] ⟨cancelled,by simp [readsOf]⟩ result
  rw [List.nil_append] at kept
  have bound : (readsOf k es).length ≤ inRead s k := by omega
  rw [inRead] at bound
  split at bound
  · rename_i reading
    refine ⟨bound,fun _ => ?_⟩
    obtain ⟨c,found,phase⟩ := (Option.any_eq_true _ _).mp reading
    exact ⟨c,found,of_decide_eq_true phase⟩
  · refine ⟨by omega,fun some => absurd (List.length_eq_zero_iff.mp (by omega)) some⟩

/-- The client that was in its read is still answered, the one that came too late is not read. -/
theorem serverDay_last : ∃ s later t, s.cancelled = true ∧
    run (step fun _ => fixedClock) (serverDay.drop 8) s = some (later,t) ∧
    readsOf 0 later = [briefOrderSingle] ∧ readsOf 2 later = [] ∧ (readsOf 0 later).length ≤ 1 ∧
    (readsOf 0 later ≠ [] → ∃ c, s.conns[0]? = some c ∧ c.phase = .reading) := by
  obtain ⟨_,s,later,t,_,cancelled,_,_,ran,received,late⟩ := serverDay_runs
  exact ⟨s,later,t,cancelled,ran,received,late,one_last_read (serverDay.drop 8) cancelled ran 0⟩

/-- `Stop` was called at some time after this. -/
def StoppedAfter (mark : Event) (es : List Event) : Prop :=
  ∃ before after, es = before ++ mark :: after ∧ .stopped ∈ after

theorem stoppedAfter_stop (other : mark ≠ .stopped) : StoppedAfter mark (es ++ [.stopped]) ↔ mark ∈ es := by
  constructor
  · rintro ⟨before,after,split,_⟩
    have member : mark ∈ es ++ [.stopped] := split ▸ List.mem_append_right _ List.mem_cons_self
    simpa [other] using member
  · intro member
    obtain ⟨before,after,rfl⟩ := List.append_of_mem member
    exact ⟨before,after ++ [.stopped],by simp,by simp⟩

theorem stoppedAfter_other (other : e ≠ .stopped) : StoppedAfter mark (es ++ [e]) ↔ StoppedAfter mark es := by
  constructor
  · rintro ⟨before,after,split,stopped⟩
    rcases List.eq_nil_or_concat after with rfl | ⟨after,last,rfl⟩
    · simp at stopped
    · rw [List.concat_eq_append,← List.cons_append,← List.append_assoc] at split
      obtain ⟨rfl,same⟩ := List.append_inj' split rfl
      refine ⟨before,after,rfl,?_⟩
      have different : Event.stopped ≠ last := fun back => other ((List.cons.inj same).1.trans back.symm)
      simpa [different] using stopped
  · rintro ⟨before,after,rfl,stopped⟩
    exact ⟨before,after ++ [e],by simp,List.mem_append_left _ stopped⟩

theorem StoppedAfter.mem (stopped : StoppedAfter mark es) : mark ∈ es := by
  obtain ⟨before,after,rfl,_⟩ := stopped
  exact List.mem_append_right _ List.mem_cons_self

def Stage.looping : Stage → Bool
  | .accepting | .failed => true
  | _ => false

/-- The socket and the flag, as the log has them. -/
structure Standing (es : List Event) (s : SessionServer) : Prop where
  idle : s.stage = .idle → .bound ∉ es ∧ .activated ∉ es ∧ s.watching = false
  bound : s.stage = .bound → .bound ∈ es ∧ .activated ∉ es ∧ s.watching = false
  looping : s.stage.looping = true → .bound ∈ es ∧ .activated ∈ es ∧ (s.watching = false → s.active = false) ∧
    (s.active = false ↔ StoppedAfter .activated es)
  closed : .bound ∈ es → (s.listener = .closed ↔ StoppedAfter .bound es) ∧ s.listener ≠ .none
  unbound : .bound ∉ es → s.listener = .none

/-- Steps that neither stop nor start the server. -/
theorem Standing.keep (standing : Standing es s)
    (stage : s'.stage = s.stage ∨ s.stage.looping = true ∧ s'.stage.looping = true ∨
      s.stage ≠ .bound ∧ ∃ err, s'.stage = .returned err)
    (same : s'.listener = s.listener ∧ s'.active = s.active ∧ s'.watching = s.watching)
    (other : e ≠ .stopped ∧ e ≠ .bound ∧ e ≠ .activated) : Standing (es ++ [e]) s' := by
  obtain ⟨listener,active,watching⟩ := same
  have mark {m : Event} (differ : e ≠ m) : m ∈ es ++ [e] ↔ m ∈ es := by simp [differ.symm]
  refine ⟨?_,?_,?_,?_,?_⟩
  · intro idle
    rw [mark other.2.1,mark other.2.2,watching]
    rcases stage with same | ⟨_,loops⟩ | ⟨_,err,back⟩
    · exact standing.idle (same ▸ idle)
    · simp [idle,Stage.looping] at loops
    · simp [idle] at back
  · intro bound
    rw [mark other.2.1,mark other.2.2,watching]
    rcases stage with same | ⟨_,loops⟩ | ⟨_,err,back⟩
    · exact standing.bound (same ▸ bound)
    · simp [bound,Stage.looping] at loops
    · simp [bound] at back
  · intro loops
    rw [mark other.2.1,mark other.2.2,watching,active,stoppedAfter_other other.1]
    rcases stage with same | ⟨before,_⟩ | ⟨_,err,back⟩
    · exact standing.looping (same ▸ loops)
    · exact standing.looping before
    · simp [back,Stage.looping] at loops
  · rw [mark other.2.1,listener,stoppedAfter_other other.1]
    exact standing.closed
  · rw [mark other.2.1,listener]
    exact standing.unbound

theorem Standing.stop (standing : Standing es s) (watching : w = false ∨ w = s.watching) :
    Standing (es ++ [.stopped]) { s.stop with watching := w } := by
  have mark {m : Event} (differ : m ≠ .stopped) : m ∈ es ++ [.stopped] ↔ m ∈ es := by simp [differ]
  have quiet (before : s.watching = false) : w = false := by
    rcases watching with off | same
    · exact off
    · exact same.trans before
  refine ⟨fun idle => ?_,fun bound => ?_,fun loops => ?_,fun bound => ?_,fun unbound => ?_⟩
  · obtain ⟨unbound,inactive,unwatched⟩ := standing.idle idle
    exact ⟨by simpa using unbound,by simpa using inactive,quiet unwatched⟩
  · obtain ⟨bound,inactive,unwatched⟩ := standing.bound bound
    exact ⟨by simpa using bound,by simpa using inactive,quiet unwatched⟩
  · obtain ⟨bound,activated,_⟩ := standing.looping loops
    rw [stoppedAfter_stop (by simp)]
    exact ⟨by simpa using bound,by simpa using activated,fun _ => rfl,by simp [SessionServer.stop,activated]⟩
  · rw [mark (by simp)] at bound
    have opened := (standing.closed bound).2
    rw [stoppedAfter_stop (by simp)]
    simp [SessionServer.stop,opened,bound]
  · rw [mark (by simp)] at unbound
    simp [SessionServer.stop,standing.unbound unbound]

theorem Standing.step (standing : Standing es s) (moves : Moves clock s a e s') : Standing (es ++ [e]) s' := by
  cases moves with
  | bind before =>
    obtain ⟨unbound,inactive,unwatched⟩ := standing.idle before
    refine ⟨by simp,fun _ => ⟨by simp,by simpa using inactive,unwatched⟩,by simp [Stage.looping],
      fun _ => ⟨?_,by simp⟩,by simp⟩
    rw [stoppedAfter_other (by simp)]
    exact ⟨by simp,fun stopped => absurd stopped.mem unbound⟩
  | activate before =>
    obtain ⟨bound,inactive,_⟩ := standing.bound before
    refine ⟨by simp,by simp,fun _ => ⟨by simp [bound],by simp,by simp,?_⟩,fun _ => ?_,fun unbound =>
      absurd bound (by simpa using unbound)⟩
    · rw [stoppedAfter_other (by simp)]
      exact ⟨by simp,fun stopped => absurd stopped.mem inactive⟩
    · rw [stoppedAfter_other (by simp)]
      exact standing.closed bound
  | refuse before => exact standing.keep (.inr (.inr ⟨by simp [before],_,rfl⟩)) ⟨rfl,rfl,rfl⟩ (by simp)
  | fail before | retry before _ =>
    exact standing.keep (.inr (.inl ⟨by simp [before,Stage.looping],rfl⟩)) ⟨rfl,rfl,rfl⟩ (by simp)
  | exit before _ => exact standing.keep (.inr (.inr ⟨by simp [before],_,rfl⟩)) ⟨rfl,rfl,rfl⟩ (by simp)
  | ctxStop before => exact standing.stop (.inl rfl)
  | stop => exact standing.stop (.inr rfl)
  | _ => exact standing.keep (.inl rfl) ⟨rfl,rfl,rfl⟩ (by simp)

theorem run_standing (result : run (step clock) actions (newSessionServer port) = some (es,s)) : Standing es s := by
  have start : Standing [] (newSessionServer port) := by
    constructor <;> simp [newSessionServer,Stage.looping]
  exact run_preserves Standing (fun _ _ _ _ _ before taken => before.step (step_moves taken)) actions [] start result

def Action.stops : Action → Bool
  | .stop | .ctxStop => true
  | _ => false

/-- While nobody stops the server its flag and its socket stay as they are. -/
theorem unstopped_step (looping : s.stage.looping = true) (active : s.active = true) (unstopped : a.stops = false)
    (moves : Moves clock s a e s') : s'.stage.looping = true ∧ s'.active = true ∧ s'.listener = s.listener ∧
      (e = .accepted → s.listener = .listening) := by
  cases moves with
  | bind before | refuse before | activate before => simp [before,Stage.looping] at looping
  | accept before opened => exact ⟨looping,active,rfl,fun _ => opened⟩
  | exit before ends => simp [active] at ends
  | fail | retry => exact ⟨rfl,active,rfl,by simp⟩
  | ctxStop | stop => simp [Action.stops] at unstopped
  | _ => exact ⟨looping,active,rfl,by simp⟩

theorem unstopped_run (looping : s.stage.looping = true) (active : s.active = true)
    (unstopped : ∀ a ∈ actions, a.stops = false)
    (result : run (step clock) actions s = some (es,t)) :
    t.stage.looping = true ∧ (.accepted ∈ es → s.listener = .listening) := by
  have guarded : EachStep (step clock) (fun _ a => a.stops = false) actions s := by
    intro front a rest os m split _
    exact unstopped a (split ▸ List.mem_append_right _ List.mem_cons_self)
  have kept := run_preserves_under (fun es t => t.stage.looping = true ∧ t.active = true ∧ t.listener = s.listener ∧
      (.accepted ∈ es → s.listener = .listening))
    (fun es t a e t' before unstopped taken => by
      obtain ⟨looping,active,same,opened⟩ := before
      obtain ⟨looping',active',same',opened'⟩ := unstopped_step looping active unstopped (step_moves taken)
      refine ⟨looping',active',same'.trans same,fun member => ?_⟩
      rcases List.mem_append.mp member with old | new
      · exact opened old
      · exact same ▸ opened' (List.mem_singleton.mp new).symm)
    actions [] ⟨looping,active,rfl,by simp⟩ guarded result
  exact ⟨kept.1,kept.2.2.2⟩

theorem step_acceptError (before : s.stage = .accepting) :
    step clock s .acceptError = some (.quiet,{ s with stage := .failed }) := by
  simp only [step,before,if_true]

theorem step_exit (before : s.stage = .failed) (inactive : s.active = false) :
    step clock s .checkActive = some (.quiet,{ s with stage := .returned none }) := by
  simp only [step,before,inactive,if_true,Bool.false_eq_true,if_false]

/-- `Start` comes back without a further `Stop` exactly if there was one after it had set `active`.
A `Stop` that was only after the socket was bound is lost: nobody is accepted, and `Start` goes
round. -/
theorem start_returns_iff (actions : List Action)
    (result : run (step clock) actions (newSessionServer port) = some (es,s)) (looping : s.stage.looping = true) :
    ((∃ rest later t, (∀ a ∈ rest, a.stops = false) ∧ run (step clock) rest s = some (later,t) ∧
        t.stage.looping = false) ↔ StoppedAfter .activated es) ∧
      (StoppedAfter .bound es → ¬StoppedAfter .activated es → ∀ rest later t, (∀ a ∈ rest, a.stops = false) →
        run (step clock) rest s = some (later,t) → .accepted ∉ later) := by
  have standing := run_standing result
  obtain ⟨bound,_,_,flag⟩ := standing.looping looping
  refine ⟨⟨?_,fun stopped => ?_⟩,fun stopped lost rest later t unstopped ran accepted => ?_⟩
  · rintro ⟨rest,later,t,unstopped,ran,back⟩
    rw [← flag]
    by_contra active
    have stays := (unstopped_run looping (Bool.not_eq_false _ |>.mp active) unstopped ran).1
    simp [back] at stays
  · have inactive := flag.mpr stopped
    cases stage : s.stage with
    | accepting =>
      refine ⟨[.acceptError,.checkActive],[.quiet,.quiet],{ s with stage := .returned none },
        by simp [Action.stops],?_,rfl⟩
      exact run_cons (step_acceptError stage) (run_cons (step_exit rfl inactive) rfl)
    | failed =>
      exact ⟨[.checkActive],[.quiet],{ s with stage := .returned none },by simp [Action.stops],
        run_cons (step_exit stage inactive) rfl,rfl⟩
    | _ => simp [stage,Stage.looping] at looping
  · have closed := (standing.closed bound).1.mpr stopped
    have active : s.active = true := by
      rw [← Bool.not_eq_false,flag]
      exact lost
    have opened := (unstopped_run looping active unstopped ran).2 accepted
    simp [closed] at opened

/-- A `Stop` before `Start` sets `active` is lost: the listener is closed and the loop spins. -/
theorem early_stop_lost : ∃ es s,
    run (step fun _ => fixedClock) [.listen none,.stop,.activate] (newSessionServer (ascii "9")) = some (es,s) ∧
    s.listener = .closed ∧ ¬∃ rest later t, (∀ a ∈ rest, a.stops = false) ∧
    run (step fun _ => fixedClock) rest s = some (later,t) ∧ t.stage.looping = false := by
  refine ⟨_,_,rfl,rfl,fun back => ?_⟩
  have stopped := (start_returns_iff [.listen none,.stop,.activate] rfl rfl).1.mp back
  rw [show [Event.bound,.stopped,.activated] = [.bound,.stopped] ++ [.activated] from rfl,
    stoppedAfter_other (by simp)] at stopped
  exact absurd stopped.mem (by decide)

def Stage.weight : Stage → Nat
  | .idle => 6
  | .bound => 5
  | .accepting => 2
  | .failed => 1
  | .returned _ => 0

def Conn.live (c : Conn) : Bool := decide (c.phase ≠ .ended)

def SessionServer.weight (s : SessionServer) : Nat :=
  s.stage.weight + (if s.watching then 1 else 0) + s.conns.countP Conn.live

def SessionServer.down (s : SessionServer) : Prop := (∃ err, s.stage = .returned err) ∧ ∀ c ∈ s.conns, c.phase = .ended

theorem weight_ended {s : SessionServer} (found : s.conns[k]? = some c) (live : c.phase ≠ .ended) :
    (s.setConn k { c with phase := .ended }).weight < s.weight := by
  obtain ⟨inside,here⟩ := List.getElem?_eq_some_iff.mp found
  have alive : c.live = true := decide_eq_true live
  have counted : 0 < s.conns.countP Conn.live := List.countP_pos_iff.mpr ⟨c,List.mem_of_getElem? found,alive⟩
  have total : (s.conns.set k { c with phase := .ended }).countP Conn.live = s.conns.countP Conn.live - 1 := by
    rw [List.countP_set inside,here,alive]
    rfl
  simp only [SessionServer.weight,SessionServer.setConn,total]
  exact Nat.add_lt_add_left (by omega) _

/-- Neither a new connection nor a packet. -/
def Event.silent : Event → Prop
  | .accepted | .received _ _ => False
  | _ => True

/-- A step of the server's own that brings its end nearer. -/
def Advances (clock : Nat → Nat → Stamp) (s : SessionServer) : Prop :=
  ∃ a e s', step clock s a = some (e,s') ∧ e.silent ∧ s'.weight < s.weight

theorem conn_advances {s : SessionServer} {c : Conn} {k : Nat} (cancelled : s.cancelled = true)
    (found : s.conns[k]? = some c) (live : c.phase ≠ .ended) :
    Advances clock s := by
  cases phase : c.phase with
  | looking =>
    refine ⟨.look k,.quiet,s.setConn k { c with phase := .ended },?_,trivial,weight_ended found live⟩
    simp [step,found,look,phase,cancelled]
  | reading =>
    refine ⟨.read k none,.quiet,s.setConn k { c with phase := .ended },?_,trivial,weight_ended found live⟩
    simp [step,found,read,phase]
  | ended => exact absurd phase live

theorem stop_advances (cancelled : s.cancelled = true) (watching : s.watching = true) : Advances clock s := by
  refine ⟨.ctxStop,.stopped,{ s.stop with watching := false },?_,trivial,?_⟩
  · simp [step,watching,cancelled]
  · simp [SessionServer.weight,SessionServer.stop,watching]

theorem start_advances (standing : Standing es s) (cancelled : s.cancelled = true)
    (out : ∀ err, s.stage ≠ .returned err) :
    Advances clock s := by
  cases watching : s.watching with
  | true => exact stop_advances cancelled watching
  | false =>
    cases stage : s.stage with
    | idle =>
      refine ⟨.listen none,.bound,{ s with listener := .listening, stage := .bound },?_,trivial,?_⟩
      · simp [step,stage]
      · simp [SessionServer.weight,stage,Stage.weight]
    | bound =>
      refine ⟨.activate,.activated,{ s with active := true, stage := .accepting, watching := true },?_,trivial,?_⟩
      · simp [step,stage]
      · simp [SessionServer.weight,stage,Stage.weight,watching]
    | accepting =>
      refine ⟨.acceptError,.quiet,{ s with stage := .failed },step_acceptError stage,trivial,?_⟩
      simp [SessionServer.weight,stage,Stage.weight]
    | failed =>
      have inactive := (standing.looping (by simp [stage,Stage.looping])).2.2.1 watching
      refine ⟨.checkActive,.quiet,{ s with stage := .returned none },step_exit stage inactive,trivial,?_⟩
      simp [SessionServer.weight,stage,Stage.weight]
    | returned err => exact absurd stage (out err)

/-- Once the context is over the server can go down from wherever it is, without another connection
or packet: `Start` comes back and every handler ends, whatever `Stop` was called in between. -/
theorem shutdown_completes (actions : List Action)
    (result : run (step clock) actions (newSessionServer port) = some (es,s)) (cancelled : s.cancelled = true) :
    ∃ rest later t, run (step clock) rest s = some (later,t) ∧ (∀ e ∈ later, e.silent) ∧ t.down := by
  have progress : ∀ u : SessionServer, ((∃ es, Standing es u) ∧ u.cancelled = true) → ¬u.down →
      ∃ a e u', step clock u a = some (e,u') ∧ e.silent ∧ ((∃ es, Standing es u') ∧ u'.cancelled = true) ∧
      u'.weight < u.weight := by
    rintro u ⟨⟨es,standing⟩,cancelled⟩ up
    have advances : Advances clock u := by
      by_cases out : ∃ err, u.stage = .returned err
      · have live : ∃ c ∈ u.conns, c.phase ≠ .ended := by
          by_contra none
          refine up ⟨out,fun c member => ?_⟩
          by_contra live
          exact none ⟨c,member,live⟩
        obtain ⟨c,member,live⟩ := live
        obtain ⟨k,found⟩ := List.mem_iff_getElem?.mp member
        exact conn_advances cancelled found live
      · exact start_advances standing cancelled fun err back => out ⟨err,back⟩
    obtain ⟨a,e,u',taken,silent,lower⟩ := advances
    have moves := step_moves taken
    exact ⟨a,e,u',taken,silent,⟨⟨_,standing.step moves⟩,(cancelled_step cancelled moves 0).1⟩,lower⟩
  obtain ⟨rest,later,t,ran,silent,_,down⟩ :=
    run_ends (fun u : SessionServer => (∃ es, Standing es u) ∧ u.cancelled = true)
    SessionServer.down Event.silent SessionServer.weight progress ⟨⟨es,run_standing result⟩,cancelled⟩
  exact ⟨rest,later,t,ran,silent,down⟩

/-- A client in its read and a finished one: both are let go, and `Start` returns. -/
theorem serverDay_down : ∃ es s,
    run (step fun _ => fixedClock) (serverDay.take 8) (newSessionServer (ascii "9")) = some (es,s) ∧
    s.cancelled = true ∧ ∃ rest later t, run (step fun _ => fixedClock) rest s = some (later,t) ∧
    (∀ e ∈ later, e.silent) ∧ t.down := by
  obtain ⟨es,s,_,_,result,cancelled,_⟩ := serverDay_runs
  exact ⟨es,s,result,cancelled,shutdown_completes (serverDay.take 8) result cancelled⟩

end TradingPlatform.Fix.Server
