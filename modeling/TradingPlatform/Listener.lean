import TradingPlatform.Telemetry

/-! `StartListening` of `pkg/queue/consumer.go` with crashes and restarts. `ReadMessage` of a reader
with a group commits the offset of the message it returns, so a restarted listener goes on after
it, whatever became of the message. -/
namespace TradingPlatform.Queue.Listening

open Json Runs Topics

/-- Between two messages, with a message that has been read, in the handler, or down. -/
inductive Stage (π F T : Type) where
  | waiting
  | received (p : π) (offset : Nat) (m : Message)
  | handling (p : π) (offset : Nat) (e : TelemetryEvent F T)
  | down

/-- `topic.next` is the committed offset of each partition. -/
structure Listener (π F T : Type) where
  topic : Topic π Message
  stage : Stage π F T

inductive Action (π : Type) where
  | append (p : π) (m : Message)
  | readMessage (p : π)
  | readError
  | deserialize
  | handler (err : Option Text)
  | crash
  | restart

inductive Event (π : Type) where
  | committed (p : π) (offset : Nat)
  | skipped (p : π) (offset : Nat)
  | handled (p : π) (offset : Nat)
  | failed (p : π) (offset : Nat) (err : Text)
  | quiet
  deriving DecidableEq

variable {π F T : Type}

def newListener : Listener π F T := ⟨.empty,.waiting⟩

variable [DecidableEq π]

def Listener.step (codec : Codec F T) (l : Listener π F T) : Action π → Option (Event π × Listener π F T)
  | .append p m => some (.quiet,{ l with topic := l.topic.append p m })
  | .readMessage p =>
    match l.stage with
    | .waiting => (l.topic.read p).map fun (m,topic) =>
      (.committed p (l.topic.next p),⟨topic,.received p (l.topic.next p) m⟩)
    | _ => none
  | .readError =>
    match l.stage with
    | .waiting => some (.quiet,l)
    | _ => none
  | .deserialize =>
    match l.stage with
    | .received p offset m =>
      match codec.deserialize m.value with
      | none => some (.skipped p offset,{ l with stage := .waiting })
      | some e => some (.quiet,{ l with stage := .handling p offset e })
    | _ => none
  | .handler err =>
    match l.stage with
    | .handling p offset _ =>
      -- an error is only logged
      match err with
      | none => some (.handled p offset,{ l with stage := .waiting })
      | some err => some (.failed p offset err,{ l with stage := .waiting })
    | _ => none
  | .crash =>
    match l.stage with
    | .down => none
    | _ => some (.quiet,{ l with stage := .down })
  | .restart =>
    match l.stage with
    | .down => some (.quiet,{ l with stage := .waiting })
    | _ => none

/-- The offset of the message at hand. -/
def Stage.atHand : Stage π F T → Option (π × Nat)
  | .received p offset _ | .handling p offset _ => some (p,offset)
  | _ => none

/-- Every message before the committed offsets that can be decoded has been handled. -/
def AllHandled (codec : Codec F T) (es : List (Event π)) (l : Listener π F T) : Prop :=
  ∀ p offset m, offset < l.topic.next p → (l.topic.log p)[offset]? = some m → (codec.deserialize m.value).isSome →
    .handled p offset ∈ es

/-- The handler does not fail, and there is no crash while a message that can be decoded is at
hand. -/
def Careful (codec : Codec F T) (l : Listener π F T) : Action π → Prop
  | .handler err => err = none
  | .crash =>
    match l.stage with
    | .received _ _ m => codec.deserialize m.value = none
    | .handling .. => False
    | _ => True
  | _ => True

variable {codec : Codec F T} {l l' : Listener π F T} {es : List (Event π)} {e : Event π}

/-- What a step does, and when it can be made. -/
inductive Moves (codec : Codec F T) : Listener π F T → Action π → Event π → Listener π F T → Prop where
  | append (topic stage p m) : Moves codec ⟨topic,stage⟩ (.append p m) .quiet ⟨topic.append p m,stage⟩
  | read (topic p m) (found : (topic.log p)[topic.next p]? = some m) :
      Moves codec ⟨topic,.waiting⟩ (.readMessage p) (.committed p (topic.next p))
        ⟨⟨topic.log,Function.update topic.next p (topic.next p + 1)⟩,.received p (topic.next p) m⟩
  | readError (topic) : Moves codec ⟨topic,.waiting⟩ .readError .quiet ⟨topic,.waiting⟩
  | skip (topic p offset m) (unknown : codec.deserialize m.value = none) :
      Moves codec ⟨topic,.received p offset m⟩ .deserialize (.skipped p offset) ⟨topic,.waiting⟩
  | decode (topic p offset m d) (decoded : codec.deserialize m.value = some d) :
      Moves codec ⟨topic,.received p offset m⟩ .deserialize .quiet ⟨topic,.handling p offset d⟩
  | handle (topic p offset d) :
      Moves codec ⟨topic,.handling p offset d⟩ (.handler none) (.handled p offset) ⟨topic,.waiting⟩
  | fail (topic p offset d err) :
      Moves codec ⟨topic,.handling p offset d⟩ (.handler (some err)) (.failed p offset err) ⟨topic,.waiting⟩
  | crash (topic stage) : Moves codec ⟨topic,stage⟩ .crash .quiet ⟨topic,.down⟩
  | restart (topic) : Moves codec ⟨topic,.down⟩ .restart .quiet ⟨topic,.waiting⟩

theorem readMessage_moves (result : l.step codec (.readMessage p) = some (e,l')) :
    Moves codec l (.readMessage p) e l' := by
  obtain ⟨topic,stage⟩ := l
  cases stage with
  | waiting =>
    simp only [Listener.step,Topic.read,Option.map_map,Option.map_eq_some_iff,Function.comp_apply] at result
    obtain ⟨m,found,same⟩ := result
    obtain ⟨rfl,rfl⟩ := Prod.mk.inj same
    exact .read _ _ _ found
  | _ => simp [Listener.step] at result

theorem readError_moves (result : l.step codec .readError = some (e,l')) : Moves codec l .readError e l' := by
  obtain ⟨topic,stage⟩ := l
  cases stage with
  | waiting =>
    obtain ⟨rfl,rfl⟩ := Prod.mk.inj (Option.some.inj result)
    exact .readError _
  | _ => simp [Listener.step] at result

theorem deserialize_moves (result : l.step codec .deserialize = some (e,l')) : Moves codec l .deserialize e l' := by
  obtain ⟨topic,stage⟩ := l
  cases stage with
  | received p offset m =>
    simp only [Listener.step] at result
    split at result
    · rename_i unknown
      obtain ⟨rfl,rfl⟩ := Prod.mk.inj (Option.some.inj result)
      exact .skip _ _ _ _ unknown
    · rename_i d decoded
      obtain ⟨rfl,rfl⟩ := Prod.mk.inj (Option.some.inj result)
      exact .decode _ _ _ _ _ decoded
  | _ => simp [Listener.step] at result

theorem handler_moves (result : l.step codec (.handler err) = some (e,l')) : Moves codec l (.handler err) e l' := by
  obtain ⟨topic,stage⟩ := l
  cases stage with
  | handling p offset d =>
    cases err with
    | none =>
      obtain ⟨rfl,rfl⟩ := Prod.mk.inj (Option.some.inj result)
      exact .handle ..
    | some err =>
      obtain ⟨rfl,rfl⟩ := Prod.mk.inj (Option.some.inj result)
      exact .fail ..
  | _ => simp [Listener.step] at result

theorem crash_moves (result : l.step codec .crash = some (e,l')) : Moves codec l .crash e l' := by
  obtain ⟨topic,stage⟩ := l
  cases stage with
  | down => simp [Listener.step] at result
  | _ =>
    obtain ⟨rfl,rfl⟩ := Prod.mk.inj (Option.some.inj result)
    exact .crash ..

theorem restart_moves (result : l.step codec .restart = some (e,l')) : Moves codec l .restart e l' := by
  obtain ⟨topic,stage⟩ := l
  cases stage with
  | down =>
    obtain ⟨rfl,rfl⟩ := Prod.mk.inj (Option.some.inj result)
    exact .restart _
  | _ => simp [Listener.step] at result

theorem step_moves (a : Action π) (result : l.step codec a = some (e,l')) : Moves codec l a e l' := by
  cases a with
  | append p m =>
    obtain ⟨rfl,rfl⟩ := Prod.mk.inj (Option.some.inj result)
    exact .append ..
  | readMessage p => exact readMessage_moves result
  | readError => exact readError_moves result
  | deserialize => exact deserialize_moves result
  | handler err => exact handler_moves result
  | crash => exact crash_moves result
  | restart => exact restart_moves result

/-- What holds in every run. -/
structure Tracks (codec : Codec F T) (es : List (Event π)) (l : Listener π F T) : Prop where
  bound : ∀ p, l.topic.next p ≤ (l.topic.log p).length
  past : ∀ p offset, .handled p offset ∈ es → offset < l.topic.next p
  fresh : ∀ p offset, l.stage.atHand = some (p,offset) → .handled p offset ∉ es ∧ offset < l.topic.next p
  received : ∀ p offset m, l.stage = .received p offset m → (l.topic.log p)[offset]? = some m
  handling : ∀ p offset d, l.stage = .handling p offset d → ∃ m, (l.topic.log p)[offset]? = some m ∧
    codec.deserialize m.value = some d

/-- What also holds while every step is careful. -/
def Covers (codec : Codec F T) (es : List (Event π)) (l : Listener π F T) : Prop :=
  ∀ p offset m, offset < l.topic.next p → (l.topic.log p)[offset]? = some m → (codec.deserialize m.value).isSome →
    .handled p offset ∈ es ∨ l.stage.atHand = some (p,offset)

variable {a : Action π} {actions : List (Action π)} {p q : π} {offset : Nat} {m m' : Message}

/-- A message that is there stays where it is. -/
theorem append_kept (topic : Topic π Message) (p : π) (m : Message) (found : (topic.log q)[offset]? = some m') :
    ((topic.append p m).log q)[offset]? = some m' := by
  by_cases same : q = p
  · subst same
    obtain ⟨short,_⟩ := List.getElem?_eq_some_iff.mp found
    simpa [Topic.append,List.getElem?_append_left short] using found
  · simpa [Topic.append,same] using found

theorem append_old (topic : Topic π Message) (p : π) (m : Message) (short : offset < (topic.log q).length) :
    ((topic.append p m).log q)[offset]? = (topic.log q)[offset]? := by
  rw [append_kept topic p m (List.getElem?_eq_getElem short),List.getElem?_eq_getElem short]

theorem step_tracks (tracks : Tracks codec es l) (moves : Moves codec l a e l') : Tracks codec (es ++ [e]) l' := by
  obtain ⟨bound,past,fresh,received,handling⟩ := tracks
  cases moves with
  | append topic stage p m =>
    refine ⟨?_,by simpa [Topic.append] using past,by simpa [Topic.append] using fresh,?_,?_⟩
    · intro q
      by_cases same : q = p
      · subst same
        simpa [Topic.append] using Nat.le_succ_of_le (bound q)
      · simpa [Topic.append,same] using bound q
    · intro q offset m' known
      exact append_kept topic p m (received q offset m' known)
    · intro q offset d known
      obtain ⟨m',found,decoded⟩ := handling q offset d known
      exact ⟨m',append_kept topic p m found,decoded⟩
  | read topic p m found =>
    obtain ⟨short,_⟩ := List.getElem?_eq_some_iff.mp found
    refine ⟨?_,?_,?_,?_,by simp⟩
    · intro q
      by_cases same : q = p
      · subst same
        simpa [Nat.succ_le_iff] using short
      · simpa [same] using bound q
    · intro q offset handled
      have before := past q offset (by simpa using handled)
      by_cases same : q = p
      · subst same
        simpa using Nat.lt_succ_of_lt before
      · simpa [same] using before
    · intro q offset hand
      obtain ⟨rfl,rfl⟩ := Prod.mk.inj (Option.some.inj hand)
      refine ⟨?_,by simp⟩
      intro handled
      have before := past p (topic.next p) (by simpa using handled)
      exact Nat.lt_irrefl _ before
    · intro q offset m' known
      obtain ⟨rfl,rfl,rfl⟩ := Stage.received.inj known
      exact found
  | readError => exact ⟨bound,by simpa using past,by simpa using fresh,by simp,by simp⟩
  | skip topic p offset m unknown => exact ⟨bound,by simpa using past,by simp [Stage.atHand],by simp,by simp⟩
  | decode topic p offset m d decoded =>
    refine ⟨bound,by simpa using past,by simpa [Stage.atHand] using fresh,by simp,?_⟩
    intro q offset' d' known
    obtain ⟨rfl,rfl,rfl⟩ := Stage.handling.inj known
    exact ⟨m,received p offset m rfl,decoded⟩
  | handle topic p offset d =>
    refine ⟨bound,?_,by simp [Stage.atHand],by simp,by simp⟩
    intro q offset' handled
    rcases List.mem_append.mp handled with early | now
    · exact past q offset' early
    · obtain ⟨rfl,rfl⟩ : q = p ∧ offset' = offset := by simpa using now
      exact (fresh q offset' rfl).2
  | fail => exact ⟨bound,by simpa using past,by simp [Stage.atHand],by simp,by simp⟩
  | crash => exact ⟨bound,by simpa using past,by simp [Stage.atHand],by simp,by simp⟩
  | restart => exact ⟨bound,by simpa using past,by simp [Stage.atHand],by simp,by simp⟩

theorem step_covers (tracks : Tracks codec es l) (covers : Covers codec es l) (careful : Careful codec l a)
    (moves : Moves codec l a e l') : Covers codec (es ++ [e]) l' := by
  intro q offset m before found accepted
  cases moves with
  | append topic stage p m' =>
    have short := Nat.lt_of_lt_of_le before (tracks.bound q)
    rw [append_old topic p m' short] at found
    simpa using covers q offset m before found accepted
  | read topic p m' new =>
    by_cases same : q = p
    · subst same
      by_cases last : offset = topic.next q
      · exact .inr (by simp [Stage.atHand,last])
      · have early : offset < topic.next q := by simp at before; omega
        simpa [Stage.atHand,Ne.symm last] using covers q offset m early found accepted
    · simp only [Function.update_of_ne same] at before
      simpa [Stage.atHand,same,Ne.symm same] using covers q offset m before found accepted
  | readError => simpa using covers q offset m before found accepted
  | skip topic p offset' m' unknown =>
    rcases covers q offset m before found accepted with handled | hand
    · exact .inl (by simp [handled])
    · obtain ⟨rfl,rfl⟩ := Prod.mk.inj (Option.some.inj hand)
      have same := tracks.received p offset' m' rfl
      obtain rfl := Option.some.inj (found.symm.trans same)
      simp [unknown] at accepted
  | decode topic p offset' m' d decoded => simpa [Stage.atHand] using covers q offset m before found accepted
  | handle topic p offset' d =>
    rcases covers q offset m before found accepted with handled | hand
    · exact .inl (by simp [handled])
    · obtain ⟨rfl,rfl⟩ := Prod.mk.inj (Option.some.inj hand)
      exact .inl (by simp)
  | fail => simp [Careful] at careful
  | crash topic stage =>
    rcases covers q offset m before found accepted with handled | hand
    · exact .inl (by simp [handled])
    · cases stage with
      | received p offset' m' =>
        obtain ⟨rfl,rfl⟩ := Prod.mk.inj (Option.some.inj hand)
        have same := tracks.received p offset' m' rfl
        obtain rfl := Option.some.inj (found.symm.trans same)
        simp [show codec.deserialize m.value = none from careful] at accepted
      | handling p offset' d => exact absurd careful id
      | waiting => simp [Stage.atHand] at hand
      | down => simp [Stage.atHand] at hand
  | restart => simpa [Stage.atHand] using covers q offset m before found accepted

omit [DecidableEq π] in
theorem start_tracks : Tracks codec [] (newListener : Listener π F T) :=
  ⟨fun _ => Nat.le_refl _,by simp,by simp [newListener,Stage.atHand],by simp [newListener],by simp [newListener]⟩

theorem run_tracks (result : run (Listener.step codec) actions newListener = some (es,l)) : Tracks codec es l := by
  simpa using run_preserves (Tracks codec) (fun _ _ a _ _ before step =>
    step_tracks before (step_moves a step)) actions []
    start_tracks result

omit [DecidableEq π] in
/-- A message that is let go is never handled. -/
theorem let_go (tracks : Tracks codec es l) (hand : l.stage.atHand = some (p,offset))
    (found : (l.topic.log p)[offset]? = some m)
    (accepted : (codec.deserialize m.value).isSome) (other : e ≠ .handled p offset) (topic : l'.topic = l.topic) :
    ¬AllHandled codec (es ++ [e]) l' := by
  intro all
  obtain ⟨unhandled,before⟩ := tracks.fresh p offset hand
  have handled := all p offset m (by rwa [topic]) (by rwa [topic]) accepted
  simp [unhandled,other.symm] at handled

theorem careless_step (tracks : Tracks codec es l) (careless : ¬Careful codec l a) (moves : Moves codec l a e l') :
    l'.stage.atHand = none ∧ ¬AllHandled codec (es ++ [e]) l' := by
  cases moves with
  | fail topic p offset d err =>
    obtain ⟨m,found,decoded⟩ := tracks.handling p offset d rfl
    exact ⟨rfl,let_go tracks rfl found (by simp [decoded]) (by simp) rfl⟩
  | crash topic stage =>
    refine ⟨rfl,?_⟩
    cases stage with
    | received p offset m =>
      have accepted : (codec.deserialize m.value).isSome := Option.isSome_iff_ne_none.mpr careless
      exact let_go tracks rfl (tracks.received p offset m rfl) accepted (by simp) rfl
    | handling p offset d =>
      obtain ⟨m,found,decoded⟩ := tracks.handling p offset d rfl
      exact let_go tracks rfl found (by simp [decoded]) (by simp) rfl
    | waiting => exact absurd trivial careless
    | down => exact absurd trivial careless
  | handle => exact absurd rfl careless
  | _ => exact absurd trivial careless

/-- At every point of a run at which no message is at hand, each committed message that can be
decoded has been handled, exactly if every step of the run is careful. -/
theorem committed_handled_iff (actions : List (Action π))
    (result : run (Listener.step codec) actions newListener = some (es,l)) :
    (∀ front rest os t, actions = front ++ rest → run (Listener.step codec) front newListener = some (os,t) →
      t.stage.atHand = none → AllHandled codec os t) ↔
    EachStep (Listener.step codec) (Careful codec) actions newListener := by
  constructor
  · intro all front a rest os t split before
    by_contra careless
    subst split
    obtain ⟨os',later,m,first,second,rfl⟩ := run_append_inv result
    obtain ⟨rfl,rfl⟩ := outcome_unique before first
    obtain ⟨o,later',t',step,_,rfl⟩ := run_cons_inv second
    obtain ⟨idle,lost⟩ := careless_step (run_tracks before) careless (step_moves a step)
    exact lost (all (front ++ [a]) rest (os ++ [o]) t' (by simp) (run_append before (run_cons step rfl)) idle)
  · intro careful front rest os t split before idle
    have early : EachStep (Listener.step codec) (Careful codec) front newListener := by
      intro front' a rest' os' u split'
      exact careful front' a (rest' ++ rest) os' u (by simp [split,split'])
    have empty : Covers codec [] (newListener : Listener π F T) := by
      intro p offset m before
      simp [newListener,Topic.empty] at before
    have both := run_preserves_under (fun es l => Tracks codec es l ∧ Covers codec es l)
      (fun _ _ a _ _ before careful step =>
        ⟨step_tracks before.1 (step_moves a step),step_covers before.1 before.2 careful (step_moves a step)⟩)
      front [] ⟨start_tracks,empty⟩ early before
    intro p offset m committed found accepted
    rcases both.2 p offset m committed found accepted with handled | hand
    · exact handled
    · simp [idle] at hand

/-- A message is handled, the next one cannot be decoded, and the listener crashes over it. -/
def sampleRun (m : Message) : List (Action Unit) :=
  [.append () m,.append () ⟨[],[]⟩,.readMessage (),.deserialize,.handler none,.readError,.readMessage (),.crash,.restart]

theorem sampleRun_handled_iff : ∃ m es l, publishTelemetry minuteWire slowEvent = .ok m ∧
    run (Listener.step minuteWire.codec) (sampleRun m) newListener = some (es,l) ∧
    .handled () 0 ∈ es ∧ l.topic.next () = 2 ∧
    ((∀ front rest os t, sampleRun m = front ++ rest →
      run (Listener.step minuteWire.codec) front newListener = some (os,t) →
      t.stage.atHand = none → AllHandled minuteWire.codec os t) ↔
    EachStep (Listener.step minuteWire.codec) (Careful minuteWire.codec) (sampleRun m) newListener) := by
  obtain ⟨m,published⟩ := slowEvent_published
  have arrives : minuteWire.codec.deserialize m.value = some _ := (publishTelemetry_ok published).2
  have ran : ∃ es l, run (Listener.step minuteWire.codec) (sampleRun m) newListener = some (es,l) ∧
      .handled () 0 ∈ es ∧ l.topic.next () = 2 := by
    simp [run,sampleRun,Listener.step,newListener,Topic.append,Topic.read,Topic.empty,arrives]
  obtain ⟨es,l,result,handled,next⟩ := ran
  exact ⟨m,es,l,published,result,handled,next,committed_handled_iff (sampleRun m) result⟩

/-- One message whose handler fails, and one over which the listener crashes. -/
def carelessRun (m : Message) : List (Action Unit) :=
  [.append () m,.append () m,.readMessage (),.deserialize,.handler (some ['e']),.readMessage (),.deserialize,
    .crash,.restart]

/-- Both are committed, and a restarted listener finds nothing to read. -/
theorem failed_messages_lost : ∃ m es l, publishTelemetry minuteWire slowEvent = .ok m ∧
    run (Listener.step minuteWire.codec) (carelessRun m) newListener = some (es,l) ∧
    l.stage.atHand = none ∧ l.topic.next () = (l.topic.log ()).length ∧ .handled () 0 ∉ es ∧ .handled () 1 ∉ es ∧
    ¬AllHandled minuteWire.codec es l := by
  obtain ⟨m,published⟩ := slowEvent_published
  have arrives : minuteWire.codec.deserialize m.value = some _ := (publishTelemetry_ok published).2
  have ran : ∃ es l, run (Listener.step minuteWire.codec) (carelessRun m) newListener = some (es,l) ∧
      l.stage.atHand = none ∧ l.topic.next () = (l.topic.log ()).length ∧ .handled () 0 ∉ es ∧ .handled () 1 ∉ es ∧
      l.topic.next () = 2 ∧ (l.topic.log ())[0]? = some m := by
    simp [run,carelessRun,Listener.step,newListener,Topic.append,Topic.read,Topic.empty,arrives,Stage.atHand]
  obtain ⟨es,l,result,idle,read,first,second,committed,found⟩ := ran
  refine ⟨m,es,l,published,result,idle,read,first,second,fun all => first ?_⟩
  exact all () 0 m (by omega) found (by simp [arrives])

end TradingPlatform.Queue.Listening
