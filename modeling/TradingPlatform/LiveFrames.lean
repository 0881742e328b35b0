import TradingPlatform.Fanout
import TradingPlatform.Ranking

/-! Frames of the live feed. The write pump of `broadcast.go` puts all messages that wait on the
channel into one text frame, with line breaks between them; `onmessage` of `web/app.js` parses a
frame as one JSON text. -/
namespace TradingPlatform.Leaderboard.Frames

open Fanout Json Ranking Runs

/-- Where the write pump is: at its select, after the first message of a frame, in the loop over
the messages it has counted, or returned. -/
inductive Pump where
  | waiting
  | opened (frame : Text)
  | draining (left : Nat) (frame : Text)
  | stopped
  deriving DecidableEq, Repr

structure Feed where
  send : Chan Text
  pump : Pump

def newFeed : Feed := ⟨⟨256,[],false⟩,.waiting⟩

inductive Action where
  | enqueue (u : Update)
  | close
  | receive
  | measure
  | drain
  | flush
  | ping

inductive Event where
  | enqueued (u : Update)
  | framed (text : Text)
  | quiet

/-- The hub only puts a message on the channel when there is room. All writes succeed, and
those between NextWriter and Close make up one frame. -/
def Feed.step (f : Feed) : Action → Option (Event × Feed)
  | .enqueue u =>
    match f.send.trySend (eventData u) with
    | some (true,send) => some (.enqueued u,{ f with send := send })
    | _ => none
  | .close => f.send.close.map fun send => (.quiet,{ f with send := send })
  | .receive =>
    match f.pump with
    | .waiting => f.send.receive.map fun
      | (some message,send) => (.quiet,⟨send,.opened message⟩)
      | (none,send) => (.quiet,⟨send,.stopped⟩)
    | _ => none
  | .measure =>
    match f.pump with
    | .opened frame => some (.quiet,{ f with pump := .draining f.send.buffer.length frame })
    | _ => none
  | .drain =>
    match f.pump with
    | .draining (n + 1) frame => f.send.receive.map fun (message,send) =>
      (.quiet,⟨send,.draining n (frame ++ '\n' :: message.getD [])⟩)
    | _ => none
  | .flush =>
    match f.pump with
    | .draining 0 frame => some (.framed frame,{ f with pump := .waiting })
    | _ => none
  | .ping => if f.pump = .waiting then some (.quiet,f) else none

/-- An update is shown when its text parses and its type is known. -/
def onmessage (data : Text) : Option Value :=
  (parse data).bind fun update =>
    match update.get (utf16 "type".toList) with
    | some (.str type) => if type = utf16 "new_run".toList then some update else none
    | _ => none

/-- The object that stands for an update. -/
def shown (u : Update) : Value :=
  .obj [(utf16 "contestant_id".toList,.str (utf16 u.contestantID)),(utf16 "score".toList,.num u.score.token),
    (utf16 "submission_id".toList,.str (utf16 u.submissionID)),(utf16 "type".toList,.str (utf16 "new_run".toList))]

def enqueued (es : List Event) : List Update := es.filterMap fun | .enqueued u => some u | _ => none

def frames (es : List Event) : List Text := es.filterMap fun | .framed text => some text | _ => none

variable {f f' : Feed} {es : List Event} {e : Event}

@[simp] theorem enqueued_append (es es' : List Event) : enqueued (es ++ es') = enqueued es ++ enqueued es' := by
  simp [enqueued]

@[simp] theorem frames_append (es es' : List Event) : frames (es ++ es') = frames es ++ frames es' := by
  simp [frames]

@[simp] theorem enqueued_single (e : Event) : enqueued [e] = match e with | .enqueued u => [u] | _ => [] := by
  cases e <;> rfl

@[simp] theorem frames_single (e : Event) : frames [e] = match e with | .framed text => [text] | _ => [] := by
  cases e <;> rfl

/-- What a step does, and when it can be made. -/
inductive Moves : Feed → Action → Event → Feed → Prop where
  | enqueue : Moves ⟨⟨capacity,buffer,false⟩,pump⟩ (.enqueue u) (.enqueued u)
      ⟨⟨capacity,buffer ++ [eventData u],false⟩,pump⟩
  | close : Moves ⟨⟨capacity,buffer,false⟩,pump⟩ .close .quiet ⟨⟨capacity,buffer,true⟩,pump⟩
  | receive : Moves ⟨⟨capacity,message :: buffer,closed⟩,.waiting⟩ .receive .quiet
      ⟨⟨capacity,buffer,closed⟩,.opened message⟩
  | stop : Moves ⟨⟨capacity,[],true⟩,.waiting⟩ .receive .quiet ⟨⟨capacity,[],true⟩,.stopped⟩
  | measure : Moves ⟨send,.opened frame⟩ .measure .quiet ⟨send,.draining send.buffer.length frame⟩
  | drain : Moves ⟨⟨capacity,message :: buffer,closed⟩,.draining (n + 1) frame⟩ .drain .quiet
      ⟨⟨capacity,buffer,closed⟩,.draining n (frame ++ '\n' :: message)⟩
  | drained : Moves ⟨⟨capacity,[],true⟩,.draining (n + 1) frame⟩ .drain .quiet
      ⟨⟨capacity,[],true⟩,.draining n (frame ++ ['\n'])⟩
  | flush : Moves ⟨send,.draining 0 frame⟩ .flush (.framed frame) ⟨send,.waiting⟩
  | ping : Moves ⟨send,.waiting⟩ .ping .quiet ⟨send,.waiting⟩

theorem enqueue_moves (result : f.step (.enqueue u) = some (e,f')) : Moves f (.enqueue u) e f' := by
  obtain ⟨⟨capacity,buffer,closed⟩,pump⟩ := f
  cases closed with
  | true => simp [Feed.step,Chan.trySend] at result
  | false =>
    by_cases room : buffer.length < capacity
    · simp only [Feed.step,Chan.trySend,room] at result
      obtain ⟨rfl,rfl⟩ := Prod.mk.inj (Option.some.inj result)
      exact .enqueue
    · simp [Feed.step,Chan.trySend,room] at result

theorem close_moves (result : f.step .close = some (e,f')) : Moves f .close e f' := by
  obtain ⟨⟨capacity,buffer,closed⟩,pump⟩ := f
  cases closed with
  | true => simp [Feed.step,Chan.close] at result
  | false =>
    obtain ⟨rfl,rfl⟩ := Prod.mk.inj (Option.some.inj result)
    exact .close

theorem receive_moves (result : f.step .receive = some (e,f')) : Moves f .receive e f' := by
  obtain ⟨⟨capacity,buffer,closed⟩,pump⟩ := f
  cases pump with
  | waiting =>
    cases buffer with
    | nil =>
      cases closed with
      | true =>
        obtain ⟨rfl,rfl⟩ := Prod.mk.inj (Option.some.inj result)
        exact .stop
      | false => simp [Feed.step,Chan.receive] at result
    | cons message buffer =>
      obtain ⟨rfl,rfl⟩ := Prod.mk.inj (Option.some.inj result)
      exact .receive
  | _ => simp [Feed.step] at result

theorem measure_moves (result : f.step .measure = some (e,f')) : Moves f .measure e f' := by
  obtain ⟨send,pump⟩ := f
  cases pump with
  | opened frame =>
    obtain ⟨rfl,rfl⟩ := Prod.mk.inj (Option.some.inj result)
    exact .measure
  | _ => simp [Feed.step] at result

theorem drain_moves (result : f.step .drain = some (e,f')) : Moves f .drain e f' := by
  obtain ⟨⟨capacity,buffer,closed⟩,pump⟩ := f
  cases pump with
  | draining n frame =>
    cases n with
    | zero => simp [Feed.step] at result
    | succ n =>
      cases buffer with
      | nil =>
        cases closed with
        | true =>
          obtain ⟨rfl,rfl⟩ := Prod.mk.inj (Option.some.inj result)
          exact .drained
        | false => simp [Feed.step,Chan.receive] at result
      | cons message buffer =>
        obtain ⟨rfl,rfl⟩ := Prod.mk.inj (Option.some.inj result)
        exact .drain
  | _ => simp [Feed.step] at result

theorem flush_moves (result : f.step .flush = some (e,f')) : Moves f .flush e f' := by
  obtain ⟨send,pump⟩ := f
  cases pump with
  | draining n frame =>
    cases n with
    | zero =>
      obtain ⟨rfl,rfl⟩ := Prod.mk.inj (Option.some.inj result)
      exact .flush
    | succ n => simp [Feed.step] at result
  | _ => simp [Feed.step] at result

theorem ping_moves (result : f.step .ping = some (e,f')) : Moves f .ping e f' := by
  obtain ⟨send,pump⟩ := f
  cases pump with
  | waiting =>
    obtain ⟨rfl,rfl⟩ := Prod.mk.inj (Option.some.inj result)
    exact .ping
  | _ => simp [Feed.step] at result

theorem step_moves (a : Action) (result : f.step a = some (e,f')) : Moves f a e f' := by
  cases a with
  | enqueue u => exact enqueue_moves result
  | close => exact close_moves result
  | receive => exact receive_moves result
  | measure => exact measure_moves result
  | drain => exact drain_moves result
  | flush => exact flush_moves result
  | ping => exact ping_moves result

/-- The text of an update is understood if nothing but white space follows it. -/
theorem onmessage_event (u : Update) (rest : Text) :
    onmessage (eventData u ++ rest) = if skip rest = [] then some (shown u) else none := by
  have members : Value.obj (putAll [] u.members) = shown u := rfl
  have type : (shown u).get (utf16 "type".toList) = some (.str (utf16 "new_run".toList)) := rfl
  rw [onmessage,eventData,parse_object,members]
  split
  · rw [Option.bind_some,type]
    exact if_pos rfl
  · rfl

theorem onmessage_single (u : Update) : onmessage (eventData u) = some (shown u) := by
  have read := onmessage_event u []
  rwa [List.append_nil] at read

/-- A frame with two messages is not understood at all. -/
theorem onmessage_joined (u v : Update) (rest : Text) :
    onmessage (eventData u ++ '\n' :: eventData v ++ rest) = none := by
  have visible : skip ('\n' :: eventData v ++ rest) ≠ [] := by
    simp [skip,isSpace,eventData,writeObject]
  rw [List.append_assoc,onmessage_event,if_neg visible]

/-- The pump counts the channel only when no message waits there. -/
def Alone (f : Feed) : Action → Prop
  | .measure => f.send.buffer = []
  | _ => True

/-- Messages that are still to go into the open frame. -/
def Pump.promised : Pump → Nat
  | .draining n _ => n
  | _ => 0

/-- Frames that are open. -/
def Pump.started : Pump → Nat
  | .opened _ | .draining .. => 1
  | _ => 0

/-- Messages that a step adds to an open frame. -/
def added (f : Feed) : Action → Nat
  | .measure => f.send.buffer.length
  | _ => 0

theorem added_zero (f : Feed) (a : Action) : added f a = 0 ↔ Alone f a := by
  cases a <;> simp [added,Alone]

/-- The loop receives no more messages than there are, and every message goes into a frame of its
own but for those that are added to an open one. -/
theorem step_balance (covered : f.pump.promised ≤ f.send.buffer.length) (moves : Moves f a e f') :
    f'.pump.promised ≤ f'.send.buffer.length ∧
    (enqueued [e]).length + f.send.buffer.length + f.pump.started + f'.pump.promised =
      (frames [e]).length + f'.send.buffer.length + f'.pump.started + f.pump.promised + added f a := by
  cases moves with
  | enqueue => simp [added] at covered ⊢; omega
  | close => simpa [added] using covered
  | receive => simp [added,Pump.promised,Pump.started]
  | stop => simp [added,Pump.promised,Pump.started]
  | measure => simp [added,Pump.promised,Pump.started]
  | drain => simp [added,Pump.promised,Pump.started] at covered ⊢; omega
  | drained => simp [Pump.promised] at covered
  | flush => simp [added,Pump.promised,Pump.started]; omega
  | ping => simp [added,Pump.promised]

/-- Over a run, what is missing in the number of frames is what was added to open ones. -/
theorem run_balance (actions : List Action) (covered : f.pump.promised ≤ f.send.buffer.length)
    (result : run Feed.step actions f = some (es,f')) :
    ∃ extra, (enqueued es).length + f.send.buffer.length + f.pump.started + f'.pump.promised =
        (frames es).length + f'.send.buffer.length + f'.pump.started + f.pump.promised + extra ∧
      (extra = 0 ↔ EachStep Feed.step Alone actions f) := by
  induction actions generalizing f es with
  | nil =>
    obtain ⟨rfl,rfl⟩ := Prod.mk.inj (Option.some.inj result)
    refine ⟨0,by simp [enqueued,frames],fun _ => ?_,fun _ => rfl⟩
    intro front a rest os t split _
    simp at split
  | cons a actions ih =>
    obtain ⟨e,later,m,first,rest,rfl⟩ := run_cons_inv result
    obtain ⟨covered',balance⟩ := step_balance covered (step_moves a first)
    obtain ⟨extra,total,alone⟩ := ih covered' rest
    have both : e :: later = [e] ++ later := rfl
    refine ⟨added f a + extra,?_,?_⟩
    · rw [both,enqueued_append,frames_append,List.length_append,List.length_append]
      omega
    · rw [eachStep_cons first,← alone,← added_zero]
      omega

/-- What the open frame holds while every frame gets one message. -/
def Holds : Pump → List Update → Prop
  | .opened frame, current => ∃ u, current = [u] ∧ frame = eventData u
  | .draining n frame, current => n = 0 ∧ ∃ u, current = [u] ∧ frame = eventData u
  | _, current => current = []

structure Single (es : List Event) (f : Feed) (sent current queued : List Update) : Prop where
  wire : frames es = sent.map eventData
  buffer : f.send.buffer = queued.map eventData
  order : enqueued es = sent ++ current ++ queued
  pump : Holds f.pump current

theorem step_single (single : Single es f sent current queued) (alone : Alone f a) (moves : Moves f a e f') :
    ∃ sent current queued, Single (es ++ [e]) f' sent current queued := by
  obtain ⟨wire,waiting,order,holds⟩ := single
  cases moves with
  | enqueue =>
    rename_i u
    exact ⟨sent,current,queued ++ [u],by simp [wire],by simpa using waiting,by simp [order],holds⟩
  | close => exact ⟨sent,current,queued,by simp [wire],waiting,by simp [order],holds⟩
  | receive =>
    obtain rfl : current = [] := holds
    obtain ⟨u,queued,rfl,rfl,rfl⟩ := List.map_eq_cons_iff.mp waiting.symm
    exact ⟨sent,[u],queued,by simp [wire],rfl,by simp [order],u,rfl,rfl⟩
  | stop => exact ⟨sent,current,queued,by simp [wire],waiting,by simp [order],holds⟩
  | measure =>
    exact ⟨sent,current,queued,by simp [wire],waiting,by simp [order],List.length_eq_zero_iff.mpr alone,holds⟩
  | drain => exact absurd holds.1 (by simp)
  | drained => exact absurd holds.1 (by simp)
  | flush =>
    obtain ⟨_,u,rfl,rfl⟩ := holds
    exact ⟨sent ++ [u],[],queued,by simp [wire],waiting,by simp [order],rfl⟩
  | ping => exact ⟨sent,current,queued,by simp [wire],waiting,by simp [order],holds⟩

theorem run_single (alone : EachStep Feed.step Alone actions newFeed)
    (result : run Feed.step actions newFeed = some (es,f)) :
    ∃ sent current queued, Single es f sent current queued := by
  have start : ∃ sent current queued, Single [] newFeed sent current queued := ⟨[],[],[],rfl,rfl,rfl,rfl⟩
  simpa using run_preserves_under (fun es f => ∃ sent current queued, Single es f sent current queued)
    (fun _ _ a _ _ ⟨_,_,_,before⟩ alone step => step_single before alone (step_moves a step)) actions
      [] start alone result

theorem onmessage_events (us : List Update) : (us.map eventData).filterMap onmessage = us.map shown := by
  induction us with
  | nil => rfl
  | cons u us ih => simp [onmessage_single,ih]

/-- Whenever the pump is between two frames, the dashboard has understood every update that no
longer waits on the channel, in their order, exactly if the pump has never found a message to add
to an open frame. -/
theorem frames_understood_iff (actions : List Action) (result : run Feed.step actions newFeed = some (es,f))
    (between : f.pump = .waiting ∨ f.pump = .stopped) :
    (frames es).filterMap onmessage ++ f.send.buffer.filterMap onmessage = (enqueued es).map shown ↔
      EachStep Feed.step Alone actions newFeed := by
  constructor
  · intro understood
    obtain ⟨extra,total,alone⟩ := run_balance actions (Nat.zero_le _) result
    have lengths := congrArg List.length understood
    rw [List.length_append,List.length_map] at lengths
    have read := List.length_filterMap_le onmessage (frames es)
    have waiting := List.length_filterMap_le onmessage f.send.buffer
    have idle : f.pump.started = 0 ∧ f.pump.promised = 0 := by
      rcases between with same | same <;> simp [same,Pump.started,Pump.promised]
    have fresh : newFeed.send.buffer.length = 0 ∧ newFeed.pump.started = 0 ∧ newFeed.pump.promised = 0 := ⟨rfl,rfl,rfl⟩
    apply alone.mp
    omega
  · intro alone
    obtain ⟨sent,current,queued,wire,waiting,order,holds⟩ := run_single alone result
    obtain rfl : current = [] := by
      rcases between with same | same
      · rwa [same] at holds
      · rwa [same] at holds
    rw [wire,waiting,order,onmessage_events,onmessage_events]
    simp

def sampleUpdate : Update := ⟨['s'],['"','<'],⟨['7','.','5'],by decide⟩⟩

/-- The second update comes after the first has been counted. -/
def apartFrames : List Action :=
  [.enqueue sampleUpdate,.receive,.measure,.enqueue sampleUpdate,.flush,.ping,.receive,.measure,.flush]

theorem apartFrames_understood_iff : ∃ es f, run Feed.step apartFrames newFeed = some (es,f) ∧
    enqueued es = [sampleUpdate,sampleUpdate] ∧ frames es = [eventData sampleUpdate,eventData sampleUpdate] ∧
    ((frames es).filterMap onmessage ++ f.send.buffer.filterMap onmessage = (enqueued es).map shown ↔
      EachStep Feed.step Alone apartFrames newFeed) :=
  ⟨_,_,rfl,rfl,rfl,frames_understood_iff apartFrames rfl (.inl rfl)⟩

/-- Two updates are there before the pump runs, and the dashboard shows neither. -/
theorem joined_frame_lost : ∃ es f,
    run Feed.step [.enqueue sampleUpdate,.enqueue sampleUpdate,.receive,.measure,.drain,.flush] newFeed = some (es,f) ∧
    f.pump = .waiting ∧ f.send.buffer = [] ∧ enqueued es = [sampleUpdate,sampleUpdate] ∧
    (frames es).filterMap onmessage = [] := by
  refine ⟨_,_,rfl,rfl,rfl,rfl,?_⟩
  have frame : frames [.enqueued sampleUpdate,.enqueued sampleUpdate,.quiet,.quiet,.quiet,
      .framed (eventData sampleUpdate ++ '\n' :: eventData sampleUpdate)] =
      [eventData sampleUpdate ++ '\n' :: eventData sampleUpdate] := rfl
  have unread := onmessage_joined sampleUpdate sampleUpdate []
  rw [List.append_nil] at unread
  exact (congrArg (List.filterMap onmessage) frame).trans (by simp [unread])

end TradingPlatform.Leaderboard.Frames
