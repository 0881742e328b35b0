import Mathlib.Data.Fintype.Basic
import TradingPlatform.TelemetryEvents
import TradingPlatform.Topic

/-! Telemetry on its way to the leaderboard: `PublishTelemetry` of `pkg/queue/producer.go`, whose
writer sends a message to the partition that has received the fewest bytes, and the loop of
`pkg/queue/consumer.go` with the handler of the leaderboard service, which reads the partitions in
any order. -/
namespace TradingPlatform.Queue

open Text Json Documents Runs Topics
open Leaderboard.Ranking (Floats Report Redis recorded recorded_same recorded_other score metadata wholes)

structure Message where
  key : Bytes
  value : Bytes
  deriving DecidableEq, Repr

variable {n : Nat} {F T : Type}

/-- The message to write, or an error. Writes are asynchronous and report none. -/
def publishTelemetry (wire : Wire F T) (e : TelemetryEvent F T) : Except Json.Text Message :=
  match serialize wire e with
  | .error err => .error ("failed to serialize event: ".toList ++ err)
  | .ok payload => .ok ⟨utf8 e.submissionID,payload⟩

/-- A message under the number of its publication. -/
structure Entry where
  number : Nat
  message : Message
  deriving DecidableEq, Repr

abbrev Event (n : Nat) := Topics.Event (Fin n) Entry

/-- `handled` are the calls of the handler, with the numbers of their messages. -/
structure Bus (n : Nat) (F T : Type) where
  topic : Topic (Fin n) Entry
  bytes : Fin n → Nat
  published : Nat
  handled : List (TelemetryEvent F T × Nat)
  redis : Redis F

def newBus : Bus n F T := ⟨.empty,fun _ => 0,0,[],⟨∅,fun _ => none⟩⟩

inductive Action (n : Nat) (F T : Type) where
  | publish (e : TelemetryEvent F T) (p : Fin n)
  | consume (p : Fin n) (now : Json.Text)

/-- The balancer takes a partition that has received the fewest bytes and does not look at the
key. -/
def publish (wire : Wire F T) (b : Bus n F T) (e : TelemetryEvent F T) (p : Fin n) : Option (Event n × Bus n F T) :=
  match publishTelemetry wire e with
  | .error _ => some (.quiet,b)
  | .ok message =>
    if ∀ q, b.bytes p ≤ b.bytes q then
      some (.sent p ⟨b.published,message⟩,
        { b with
          topic := b.topic.append p ⟨b.published,message⟩
          bytes := Function.update b.bytes p (b.bytes p + message.key.length + message.value.length)
          published := b.published + 1 })
    else none

def report (e : TelemetryEvent F T) : Report F :=
  ⟨e.submissionID,e.contestantID,e.tps,e.p99LatencyMS,e.successRate⟩

/-- The handler of the leaderboard service. -/
def handle (wire : Wire F T) (b : Bus n F T) (number : Nat) (e : TelemetryEvent F T) (now : Json.Text) : Bus n F T :=
  { b with handled := b.handled ++ [(e,number)], redis := recorded wire.toFloats b.redis (report e) now }

/-- One round of `StartListening`: a message that cannot be decoded is passed over. -/
def consume (wire : Wire F T) (b : Bus n F T) (p : Fin n) (now : Json.Text) : Option (Event n × Bus n F T) :=
  (b.topic.read p).map fun (entry,topic) =>
    match deserializeTelemetryEvent wire entry.message.value with
    | none => (.got p entry,{ b with topic := topic })
    | some e => (.got p entry,handle wire { b with topic := topic } entry.number e now)

def Bus.step (wire : Wire F T) (b : Bus n F T) : Action n F T → Option (Event n × Bus n F T)
  | .publish e p => publish wire b e p
  | .consume p now => consume wire b p now

/-- The events that are published, as they arrive at the other end, under their numbers. -/
def publishedFrom (wire : Wire F T) (start : Nat) (pubs : List (TelemetryEvent F T × Fin n)) :
    List (TelemetryEvent F T × Nat) :=
  (pubs.filterMap fun pub =>
    match publishTelemetry wire pub.1 with
    | .ok _ => some (pub.1.reread wire)
    | .error _ => none).zipIdx start

def ofSubmission (id : Json.Text) (events : List (TelemetryEvent F T × Nat)) : List (TelemetryEvent F T × Nat) :=
  events.filter fun x => x.1.submissionID = id

/-- What the leaderboard has on a submission is this event. -/
def Shows (wire : Wire F T) (redis : Redis F) (id : Json.Text) (e : TelemetryEvent F T) : Prop :=
  redis.zset.lookup id = some (score wire.toFloats (report e)) ∧
    ∃ now, redis.hash id = some ⟨metadata wire.toFloats (report e) now,true⟩

/-- The handler has been given the events of a submission in the order of their publication, and
when nothing is left to read it has been given all of them and the leaderboard shows the latest. -/
structure InOrder (wire : Wire F T) (id : Json.Text) (pubs : List (TelemetryEvent F T × Fin n)) (b : Bus n F T) :
    Prop where
  order : ofSubmission id b.handled <+: ofSubmission id (publishedFrom wire 0 pubs)
  latest : (∀ p, b.topic.next p = (b.topic.log p).length) →
    ofSubmission id b.handled = ofSubmission id (publishedFrom wire 0 pubs) ∧
    ∀ e k, (ofSubmission id (publishedFrom wire 0 pubs)).getLast? = some (e,k) → Shows wire b.redis id e

/-- The partition with the fewest bytes is the one that holds the earlier messages under the same
key. -/
def Together (wire : Wire F T) (b : Bus n F T) : Action n F T → Prop
  | .publish e p => ∀ message, publishTelemetry wire e = .ok message →
      ∀ q, ∀ entry ∈ b.topic.log q, entry.message.key = message.key → q = p
  | .consume .. => True

variable {wire : Wire F T} {es : List (Event n)} {b b' : Bus n F T} {o : Event n}
  {e d : TelemetryEvent F T} {p : Fin n} {id now : Json.Text} {entry : Entry}

/-- What arrives of a message: its event and its number. -/
def decoded (wire : Wire F T) (entry : Entry) : Option (TelemetryEvent F T × Nat) :=
  (deserializeTelemetryEvent wire entry.message.value).map fun e => (e,entry.number)

/-- The same for the messages of one submission. -/
def about (wire : Wire F T) (id : Json.Text) (entry : Entry) : Option (TelemetryEvent F T × Nat) :=
  (decoded wire entry).filter fun x => x.1.submissionID = id

theorem about_some (known : about wire id entry = some (d,k)) :
    k = entry.number ∧ deserializeTelemetryEvent wire entry.message.value = some d ∧ d.submissionID = id := by
  obtain ⟨arrived,named⟩ := Option.filter_eq_some_iff.mp known
  obtain ⟨d',decoded,same⟩ := Option.map_eq_some_iff.mp arrived
  obtain ⟨rfl,rfl⟩ := Prod.mk.inj same
  exact ⟨rfl,decoded,of_decide_eq_true named⟩

theorem about_decoded (decoded : deserializeTelemetryEvent wire entry.message.value = some d) :
    about wire d.submissionID entry = some (d,entry.number) := by
  simp [about,Queue.decoded,decoded]

theorem ofSubmission_snoc (id : Json.Text) (events : List (TelemetryEvent F T × Nat)) (x : TelemetryEvent F T × Nat) :
    ofSubmission id (events ++ [x]) =
      if x.1.submissionID = id then ofSubmission id events ++ [x] else ofSubmission id events := by
  by_cases named : x.1.submissionID = id <;> simp [ofSubmission,named]

theorem publishTelemetry_ok (published : publishTelemetry wire e = .ok message) :
    message.key = utf8 e.submissionID ∧ deserializeTelemetryEvent wire message.value = some (e.reread wire) := by
  unfold publishTelemetry at published
  split at published
  · cases published
  · rename_i payload written
    obtain rfl := Except.ok.inj published
    exact ⟨rfl,deserialize_serialize written⟩

/-- What holds in every run. -/
structure Sound (wire : Wire F T) (es : List (Event n)) (b : Bus n F T) : Prop where
  records : Records es b.topic
  numbered : ∀ x ∈ sent es, x.2.number < b.published
  increasing : (sent es).Pairwise fun x y => x.2.number < y.2.number
  keyed : ∀ x ∈ sent es, ∃ d, deserializeTelemetryEvent wire x.2.message.value = some d ∧
    x.2.message.key = utf8 d.submissionID
  handed : b.handled = (got es).filterMap fun x => decoded wire x.2
  shows : ∀ id e k, (ofSubmission id b.handled).getLast? = some (e,k) → Shows wire b.redis id e

theorem Sound.of_submission (sound : Sound wire es b) (id : Json.Text) :
    ofSubmission id b.handled = gotAs (about wire id) es := by
  rw [sound.handed,ofSubmission,List.filter_filterMap]
  rfl

theorem publish_cases (result : publish wire b e p = some (o,b')) :
    (∃ err, publishTelemetry wire e = .error err ∧ o = .quiet ∧ b' = b) ∨
    ∃ message, publishTelemetry wire e = .ok message ∧ o = .sent p ⟨b.published,message⟩ ∧
      b'.topic = b.topic.append p ⟨b.published,message⟩ ∧ b'.published = b.published + 1 ∧
      b'.handled = b.handled ∧ b'.redis = b.redis := by
  unfold publish at result
  split at result
  · rename_i err refused
    obtain ⟨rfl,rfl⟩ := Prod.mk.inj (Option.some.inj result)
    exact .inl ⟨err,refused,rfl,rfl⟩
  · rename_i message known
    split at result
    · obtain ⟨rfl,rfl⟩ := Prod.mk.inj (Option.some.inj result)
      exact .inr ⟨message,known,rfl,rfl,rfl,rfl,rfl⟩
    · simp at result

theorem publish_sound (sound : Sound wire es b) (result : publish wire b e p = some (o,b')) :
    Sound wire (es ++ [o]) b' := by
  rcases publish_cases result with ⟨_,_,rfl,rfl⟩ | ⟨message,known,rfl,topic,published,handled,redis⟩
  · refine ⟨sound.records.quiet,?_,?_,?_,?_,sound.shows⟩
    · simpa using sound.numbered
    · simpa using sound.increasing
    · simpa using sound.keyed
    · simpa using sound.handed
  · refine ⟨?_,?_,?_,?_,?_,?_⟩
    · rw [topic]
      exact sound.records.append p _
    · rw [sent_append,sent_single,published]
      intro x member
      rcases List.mem_append.mp member with early | last
      · exact Nat.lt_succ_of_lt (sound.numbered x early)
      · simp [List.mem_singleton.mp last]
    · rw [sent_append,sent_single,List.pairwise_append]
      refine ⟨sound.increasing,List.pairwise_singleton ..,?_⟩
      intro x early y last
      simpa [List.mem_singleton.mp last] using sound.numbered x early
    · rw [sent_append,sent_single]
      intro x member
      rcases List.mem_append.mp member with early | last
      · exact sound.keyed x early
      · rw [List.mem_singleton.mp last]
        obtain ⟨key,decoded⟩ := publishTelemetry_ok known
        exact ⟨e.reread wire,decoded,key⟩
    · simpa [handled] using sound.handed
    · rw [handled,redis]
      exact sound.shows

theorem consume_cases (result : consume wire b p now = some (o,b')) :
    ∃ entry topic, b.topic.read p = some (entry,topic) ∧ o = .got p entry ∧ b'.topic = topic ∧
      b'.published = b.published ∧ b'.bytes = b.bytes ∧
      (deserializeTelemetryEvent wire entry.message.value = none ∧ b' = { b with topic := topic } ∨
        ∃ d, deserializeTelemetryEvent wire entry.message.value = some d ∧
          b' = handle wire { b with topic := topic } entry.number d now) := by
  obtain ⟨⟨entry,topic⟩,read,same⟩ := Option.map_eq_some_iff.mp result
  refine ⟨entry,topic,read,?_⟩
  cases decoded : deserializeTelemetryEvent wire entry.message.value with
  | none =>
    simp only [decoded,Prod.mk.injEq] at same
    obtain ⟨rfl,rfl⟩ := same
    simp
  | some d =>
    simp only [decoded,Prod.mk.injEq] at same
    obtain ⟨rfl,rfl⟩ := same
    simp [handle]

/-- A call of the handler leaves its event on the leaderboard, and the other submissions alone. -/
theorem handle_shows (wire : Wire F T) (b : Bus n F T) (number : Nat) (d : TelemetryEvent F T) (now : Json.Text)
    (shows' : ∀ id e k, (ofSubmission id b.handled).getLast? = some (e,k) → Shows wire b.redis id e) (id : Json.Text)
    (last : (ofSubmission id (handle wire b number d now).handled).getLast? = some (e,k)) :
    Shows wire (handle wire b number d now).redis id e := by
  simp only [handle,ofSubmission_snoc] at last
  split at last
  · rename_i named
    obtain ⟨rfl,_⟩ : d = e ∧ number = k := by simpa using last
    subst named
    obtain ⟨score,hash⟩ := recorded_same wire.toFloats b.redis (report d) now
    exact ⟨score,now,hash⟩
  · rename_i other
    obtain ⟨score,hash⟩ := recorded_other wire.toFloats (r := report d) b.redis now (Ne.symm other)
    simp only [Shows,handle,score,hash]
    exact shows' id e k last

theorem consume_sound (sound : Sound wire es b) (result : consume wire b p now = some (o,b')) :
    Sound wire (es ++ [o]) b' := by
  obtain ⟨entry,topic,read,rfl,rfl,published,_,effect⟩ := consume_cases result
  have got' : got (es ++ [.got p entry]) = got es ++ [(p,entry)] := by simp
  refine ⟨sound.records.read read,?_,?_,?_,?_,?_⟩
  · simpa [published] using sound.numbered
  · simpa using sound.increasing
  · simpa using sound.keyed
  · rw [got',List.filterMap_append,← sound.handed]
    rcases effect with ⟨unknown,after⟩ | ⟨d,known,after⟩
    · rw [after]
      simp [decoded,unknown]
    · rw [after]
      simp [decoded,known,handle]
  · intro id e k last
    rcases effect with ⟨unknown,after⟩ | ⟨d,known,after⟩
    · rw [after] at last ⊢
      exact sound.shows id e k last
    · rw [after] at last ⊢
      exact handle_shows wire { b with topic := b'.topic } entry.number d now sound.shows id last

theorem run_sound (actions : List (Action n F T)) (result : run (Bus.step wire) actions newBus = some (es,b)) :
    Sound wire es b := by
  have start : Sound wire [] (newBus : Bus n F T) := by
    refine ⟨Records.start,?_,?_,?_,?_,?_⟩ <;> simp [sent,got,newBus,ofSubmission]
  refine run_preserves (Sound wire) ?_ actions [] start result
  intro es b a o b' sound step
  cases a with
  | publish e p => exact publish_sound sound step
  | consume p now => exact consume_sound sound step

def publications (actions : List (Action n F T)) : List (TelemetryEvent F T × Fin n) :=
  actions.filterMap fun | .publish e p => some (e,p) | .consume .. => none

def publishAll (pubs : List (TelemetryEvent F T × Fin n)) : List (Action n F T) := pubs.map fun (e,p) => .publish e p

theorem publishedFrom_cons (start : Nat) (e : TelemetryEvent F T) (p : Fin n) (pubs : List (TelemetryEvent F T × Fin n)) :
    publishedFrom wire start ((e,p) :: pubs) =
      match publishTelemetry wire e with
      | .ok _ => (e.reread wire,start) :: publishedFrom wire (start + 1) pubs
      | .error _ => publishedFrom wire start pubs := by
  unfold publishedFrom
  cases known : publishTelemetry wire e <;> simp [known]

/-- The messages of a run carry what was published in it. -/
theorem run_sent (actions : List (Action n F T)) (result : run (Bus.step wire) actions b = some (es,b')) :
    ((sent es).filterMap fun x => decoded wire x.2) = publishedFrom wire b.published (publications actions) := by
  induction actions generalizing b es with
  | nil =>
    obtain ⟨rfl,_⟩ := Prod.mk.inj (Option.some.inj result)
    rfl
  | cons a actions ih =>
    obtain ⟨o,later,m,first,rest,rfl⟩ := run_cons_inv result
    rw [← List.singleton_append,sent_append,List.filterMap_append,ih rest]
    cases a with
    | publish e p =>
      have split : publications (.publish e p :: actions) = (e,p) :: publications actions := rfl
      rw [split,publishedFrom_cons]
      rcases publish_cases first with ⟨err,refused,rfl,rfl⟩ | ⟨message,known,rfl,_,published,_⟩
      · simp [refused]
      · simp [known,published,decoded,(publishTelemetry_ok known).2]
    | consume p now =>
      have same : publications (.consume p now :: actions) = publications actions := rfl
      obtain ⟨entry,topic,_,rfl,_,published,_⟩ := consume_cases first
      simp [same,published]

theorem published_about (actions : List (Action n F T)) (result : run (Bus.step wire) actions newBus = some (es,b))
    (id : Json.Text) : ofSubmission id (publishedFrom wire 0 (publications actions)) = sentAs (about wire id) es := by
  have all := run_sent actions result
  rw [show (newBus : Bus n F T).published = 0 from rfl] at all
  rw [← all,ofSubmission,List.filter_filterMap]
  rfl

/-- All events of a submission are in one partition. -/
def Housed (wire : Wire F T) (es : List (Event n)) : Prop :=
  ∀ id, ∀ x ∈ sent es, ∀ y ∈ sent es, (about wire id x.2).isSome → (about wire id y.2).isSome → x.1 = y.1

theorem Housed.in_order (housed : Housed wire es) (sound : Sound wire es b) (id : Json.Text) :
    gotAs (about wire id) es <+: sentAs (about wire id) es ∧
      ((∀ p, b.topic.next p = (b.topic.log p).length) → gotAs (about wire id) es = sentAs (about wire id) es) := by
  by_cases known : ∃ x ∈ sent es, (about wire id x.2).isSome
  · obtain ⟨x,member,kind⟩ := known
    have there : ∀ y ∈ sent es, (about wire id y.2).isSome → y.1 = x.1 :=
      fun y member' kind' => housed id y member' x member kind' kind
    have split := sound.records.in_order there
    refine ⟨⟨_,split.symm⟩,?_⟩
    intro read
    rw [split,read x.1,List.drop_length,List.filterMap_nil,List.append_nil]
  · have unknown : ∀ x ∈ sent es, about wire id x.2 = none := by simpa using known
    have none_sent : sentAs (about wire id) es = [] := List.filterMap_eq_nil_iff.mpr unknown
    have none_got : gotAs (about wire id) es = [] :=
      List.filterMap_eq_nil_iff.mpr fun x member => unknown x (sound.records.got_sent member)
    rw [none_sent,none_got]
    exact ⟨List.prefix_refl _,fun _ => rfl⟩

theorem in_order_of_housed (actions : List (Action n F T)) (result : run (Bus.step wire) actions newBus = some (es,b))
    (housed : Housed wire es) (id : Json.Text) : InOrder wire id (publications actions) b := by
  have sound := run_sound actions result
  obtain ⟨order,complete⟩ := housed.in_order sound id
  rw [← sound.of_submission,← published_about actions result] at order complete
  refine ⟨order,fun read => ⟨complete read,?_⟩⟩
  intro e k last
  rw [← complete read] at last
  exact sound.shows id e k last

theorem publish_housed (sound : Sound wire es b) (housed : Housed wire es) (together : Together wire b (.publish e p))
    (result : publish wire b e p = some (o,b')) : Housed wire (es ++ [o]) := by
  rcases publish_cases result with ⟨_,_,rfl,rfl⟩ | ⟨message,known,rfl,_⟩
  · simpa [Housed] using housed
  · obtain ⟨key,arrives⟩ := publishTelemetry_ok known
    have new {id : Json.Text} {x : Fin n × Entry} (member : x ∈ sent es) (kind : (about wire id x.2).isSome)
        (kind' : (about wire id ⟨b.published,message⟩).isSome) : x.1 = p := by
      obtain ⟨⟨d,k⟩,found⟩ := Option.isSome_iff_exists.mp kind
      obtain ⟨⟨d',k'⟩,found'⟩ := Option.isSome_iff_exists.mp kind'
      obtain ⟨_,decoded,named⟩ := about_some found
      obtain ⟨_,decoded',named'⟩ := about_some found'
      obtain rfl := Option.some.inj (arrives.symm.trans decoded')
      obtain ⟨d'',decoded'',same⟩ := sound.keyed x member
      obtain rfl := Option.some.inj (decoded.symm.trans decoded'')
      have there : x.2 ∈ b.topic.log x.1 := by rwa [← sound.records.holds,mem_within]
      refine together message known x.1 x.2 there ?_
      rw [same,key,named,← named']
      rfl
    intro id x member y member' kind kind'
    rw [sent_append,sent_single,List.mem_append,List.mem_singleton] at member member'
    rcases member with early | rfl <;> rcases member' with early' | rfl
    · exact housed id x early y early' kind kind'
    · exact new early kind kind'
    · exact (new early' kind' kind).symm
    · rfl

theorem run_housed (actions : List (Action n F T)) (together : EachStep (Bus.step wire) (Together wire) actions newBus)
    (result : run (Bus.step wire) actions newBus = some (es,b)) : Housed wire es := by
  have start : Sound wire [] (newBus : Bus n F T) := run_sound [] rfl
  have empty : Housed wire ([] : List (Event n)) := by simp [Housed,sent]
  refine (run_preserves_under (fun es b => Sound wire es b ∧ Housed wire es) ?_ actions []
    ⟨start,empty⟩ together result).2
  rintro es b a o b' ⟨sound,housed⟩ together step
  cases a with
  | publish e p => exact ⟨publish_sound sound step,publish_housed sound housed together step⟩
  | consume p now =>
    refine ⟨consume_sound sound step,?_⟩
    obtain ⟨entry,topic,_,rfl,_⟩ := consume_cases step
    simpa [Housed] using housed

theorem publish_same {c : Bus n F T} (log : c.topic.log = b.topic.log) (bytes : c.bytes = b.bytes)
    (published : c.published = b.published) (result : publish wire b e p = some (o,b')) :
    ∃ c', publish wire c e p = some (o,c') ∧
      c'.topic.log = b'.topic.log ∧ c'.bytes = b'.bytes ∧ c'.published = b'.published := by
  unfold publish at result ⊢
  split at result
  · obtain ⟨rfl,rfl⟩ := Prod.mk.inj (Option.some.inj result)
    exact ⟨c,rfl,log,bytes,published⟩
  · split at result
    · rename_i least
      obtain ⟨rfl,rfl⟩ := Prod.mk.inj (Option.some.inj result)
      rw [← bytes] at least
      simp only [least,if_true,published,implies_true]
      exact ⟨_,rfl,by simp [Topic.append,log],by simp [bytes],rfl⟩
    · simp at result

/-- What is published does not depend on what is read in between. -/
theorem run_publications {c : Bus n F T} (actions : List (Action n F T)) (log : c.topic.log = b.topic.log)
    (bytes : c.bytes = b.bytes) (published : c.published = b.published)
    (result : run (Bus.step wire) actions b = some (es,b')) :
    ∃ os c', run (Bus.step wire) (publishAll (publications actions)) c = some (os,c') ∧ sent os = sent es := by
  induction actions generalizing b c es with
  | nil =>
    obtain ⟨rfl,rfl⟩ := Prod.mk.inj (Option.some.inj result)
    exact ⟨[],c,rfl,rfl⟩
  | cons a actions ih =>
    obtain ⟨o,later,m,first,rest,rfl⟩ := run_cons_inv result
    cases a with
    | publish e p =>
      obtain ⟨c',step,log',bytes',published'⟩ := publish_same log bytes published first
      obtain ⟨os,c'',run',same⟩ := ih log' bytes' published' rest
      refine ⟨o :: os,c'',run_cons step run',?_⟩
      rw [← List.singleton_append,← List.singleton_append (l := later),sent_append,sent_append,same]
    | consume p now =>
      obtain ⟨entry,topic,read,rfl,same_topic,same_published,same_bytes,_⟩ := consume_cases first
      have log' : m.topic.log = b.topic.log := by
        obtain ⟨_,_,same⟩ := Option.map_eq_some_iff.mp read
        rw [same_topic,← (Prod.mk.inj same).2]
      obtain ⟨os,c',run',same⟩ := ih (log.trans log'.symm) (bytes.trans same_bytes.symm)
        (published.trans same_published.symm) rest
      exact ⟨os,c',run',same⟩

theorem publishing_reads_nothing (pubs : List (TelemetryEvent F T × Fin n))
    (result : run (Bus.step wire) (publishAll pubs) b = some (es,b')) : got es = [] := by
  induction pubs generalizing b es with
  | nil =>
    obtain ⟨rfl,_⟩ := Prod.mk.inj (Option.some.inj result)
    rfl
  | cons pub pubs ih =>
    obtain ⟨o,later,m,first,rest,rfl⟩ := run_cons_inv result
    rw [← List.singleton_append,got_append,ih rest]
    rcases publish_cases first with ⟨_,_,rfl,_⟩ | ⟨_,_,rfl,_⟩ <;> simp

theorem consume_next (wire : Wire F T) (found : (b.topic.log p)[b.topic.next p]? = some entry) (now : Json.Text) :
    ∃ b', consume wire b p now = some (.got p entry,b') ∧ b'.topic.log = b.topic.log ∧
      b'.topic.next p = b.topic.next p + 1 := by
  simp only [consume,Topic.read,found,Option.map_some]
  cases deserializeTelemetryEvent wire entry.message.value with
  | none => exact ⟨_,rfl,rfl,by simp⟩
  | some d => exact ⟨_,rfl,rfl,by simp [handle]⟩

/-- A partition can be read to its end while the others wait. -/
theorem read_partition (wire : Wire F T) (b : Bus n F T) (p : Fin n) (now : Json.Text)
    (rest : b.topic.next p + k = (b.topic.log p).length) :
    ∃ es b', run (Bus.step wire) (List.replicate k (.consume p now)) b = some (es,b') ∧
      es = ((b.topic.log p).drop (b.topic.next p)).map (.got p) := by
  induction k generalizing b with
  | zero => exact ⟨[],b,rfl,by rw [Nat.add_zero] at rest; simp [rest]⟩
  | succ k ih =>
    have short : b.topic.next p < (b.topic.log p).length := by omega
    obtain ⟨b',step,log,next⟩ := consume_next wire (List.getElem?_eq_getElem short) now
    obtain ⟨es,b'',later,same⟩ := ih b' (by rw [log,next]; omega)
    refine ⟨_,b'',run_cons step later,?_⟩
    rw [same,log,next,List.drop_eq_getElem_cons short]
    rfl

theorem Sound.number_unique (sound : Sound wire es b) (member : x ∈ sent es) (member' : y ∈ sent es)
    (same : x.2.number = y.2.number) : x = y := by
  have distinct : ((sent es).map fun x => x.2.number).Nodup :=
    List.pairwise_map.mpr (sound.increasing.imp fun less => Nat.ne_of_lt less)
  exact List.inj_on_of_nodup_map distinct member member' same

theorem Sound.ascending (sound : Sound wire es b) (id : Json.Text) :
    (sentAs (about wire id) es).Pairwise fun x y => x.2 < y.2 := by
  refine sound.increasing.filterMap _ ?_
  rintro x y less ⟨d,k⟩ found ⟨d',k'⟩ found'
  rw [(about_some found).1,(about_some found').1]
  exact less

theorem mem_sentAs (member : (p,entry) ∈ sent es)
    (decoded : deserializeTelemetryEvent wire entry.message.value = some d) :
    (d,entry.number) ∈ sentAs (about wire d.submissionID) es :=
  List.mem_filterMap.mpr ⟨(p,entry),member,about_decoded decoded⟩

/-- An event that is got while an earlier one of its submission is not shows the disorder. -/
theorem disorder (sound : Sound wire es b) (entry entry' : Entry) (early : (q,entry) ∈ sent es)
    (late : (p,entry') ∈ got es)
    (less : entry.number < entry'.number) (decoded : deserializeTelemetryEvent wire entry.message.value = some d)
    (decoded' : deserializeTelemetryEvent wire entry'.message.value = some d') (same : d.submissionID = d'.submissionID)
    (missing : (q,entry) ∉ got es) :
    ¬gotAs (about wire d'.submissionID) es <+: sentAs (about wire d'.submissionID) es := by
  rintro ⟨unread,order⟩
  have ascending := sound.ascending d'.submissionID
  rw [← order,List.pairwise_append] at ascending
  have was_sent : (d,entry.number) ∈ sentAs (about wire d'.submissionID) es := same ▸ mem_sentAs early decoded
  have was_got : (d',entry'.number) ∈ gotAs (about wire d'.submissionID) es :=
    List.mem_filterMap.mpr ⟨(p,entry'),late,about_decoded decoded'⟩
  rw [← order,List.mem_append] at was_sent
  rcases was_sent with taken | left
  · obtain ⟨x,member,found⟩ := List.mem_filterMap.mp taken
    have number := (about_some found).1
    have same := sound.number_unique early (sound.records.got_sent member) number
    exact missing (same ▸ member)
  · have after := ascending.2.2 _ was_got _ left
    exact Nat.lt_asymm less after

theorem publications_publishAll (pubs : List (TelemetryEvent F T × Fin n)) (p : Fin n) (now : Json.Text) (k : Nat) :
    publications (publishAll pubs ++ List.replicate k (.consume p now)) = pubs := by
  simp [publications,publishAll,List.filterMap_map]

/-- After all publications one partition can be read, and nothing else. -/
theorem read_one_partition (pubs : List (TelemetryEvent F T × Fin n))
    (legal : run (Bus.step wire) (publishAll pubs) newBus = some (os,b)) (p : Fin n) :
    ∃ actions reads t, publications actions = pubs ∧ run (Bus.step wire) actions newBus = some (os ++ reads,t) ∧
      got (os ++ reads) = (b.topic.log p).map (p,·) := by
  have sound := run_sound _ legal
  have unread := publishing_reads_nothing pubs legal
  have next : b.topic.next p = 0 := by
    have bound := sound.records.bound p
    have length := congrArg List.length (sound.records.reads p)
    rw [unread,List.length_take] at length
    simp [within] at length
    omega
  obtain ⟨reads,t,reading,rfl⟩ := read_partition wire b p [] (k := (b.topic.log p).length) (by omega)
  refine ⟨_,_,t,publications_publishAll pubs p [] _,run_append legal reading,?_⟩
  rw [got_append,unread,next]
  simp [got,List.filterMap_map]

/-- An event that goes to another partition than an earlier one of its submission can be read
before it. -/
theorem together_of_in_order (pubs : List (TelemetryEvent F T × Fin n))
    (legal : run (Bus.step wire) (publishAll pubs) newBus = some (os,b))
    (ordered : ∀ actions es t, publications actions = pubs → run (Bus.step wire) actions newBus = some (es,t) →
      ∀ id, InOrder wire id pubs t) :
    EachStep (Bus.step wire) (Together wire) (publishAll pubs) newBus := by
  intro front a rest before t split start
  cases a with
  | consume p now => trivial
  | publish e p =>
    intro message known q entry member key
    by_contra apart
    -- the earlier event and the one published now are both among the events sent
    have sound := run_sound _ start
    have early : (q,entry) ∈ sent before := by rwa [← mem_within,sound.records.holds]
    obtain ⟨d,arrives,key'⟩ := sound.keyed (q,entry) early
    obtain ⟨key'',arrives'⟩ := publishTelemetry_ok known
    have same : d.submissionID = (e.reread wire).submissionID :=
      utf8_injective (key'.symm.trans (key.trans key''))
    have whole := legal
    rw [split] at whole
    obtain ⟨os',later,m,first,second,rfl⟩ := run_append_inv whole
    obtain ⟨rfl,rfl⟩ := outcome_unique start first
    obtain ⟨o,later,m',step,_,rfl⟩ := run_cons_inv second
    obtain rfl : o = .sent p ⟨t.published,message⟩ := by
      rcases publish_cases step with ⟨err,refused,_⟩ | ⟨message',known',same,_⟩
      · simp [refused] at known
      · rw [same,Except.ok.inj (known'.symm.trans known)]
    have late : (p,⟨t.published,message⟩) ∈ sent (before ++ .sent p ⟨t.published,message⟩ :: later) := by simp [sent]
    -- the partition of the later event is read, that of the earlier is not
    obtain ⟨actions,reads,t',pubs',result,gets⟩ := read_one_partition pubs legal p
    have order := (ordered actions _ t' pubs' result e.submissionID).order
    rw [← pubs',published_about actions result,(run_sound _ result).of_submission] at order
    refine disorder (run_sound _ result) entry ⟨t.published,message⟩ (q := q) (p := p) ?_ ?_ (sound.numbered _ early)
      arrives arrives' same ?_ order
    · simp [early]
    · rw [gets,List.mem_map]
      refine ⟨_,?_,rfl⟩
      rwa [← (run_sound _ legal).records.holds,mem_within]
    · rw [gets]
      simp [Ne.symm apart]

/-- For the publications of a run: every way of reading them hands the published events of each
submission to the handler in their order, and leaves the latest on the leaderboard, exactly if each
message goes to the partition that holds the earlier ones under its key. -/
theorem telemetry_ordered_iff (pubs : List (TelemetryEvent F T × Fin n))
    (legal : run (Bus.step wire) (publishAll pubs) newBus = some (os,b)) :
    (∀ actions es t, publications actions = pubs → run (Bus.step wire) actions newBus = some (es,t) →
      ∀ id, InOrder wire id pubs t) ↔
    EachStep (Bus.step wire) (Together wire) (publishAll pubs) newBus := by
  constructor
  · exact together_of_in_order pubs legal
  · rintro together actions es t rfl result id
    obtain ⟨os',b',alone,same⟩ := run_publications (c := newBus) actions rfl rfl rfl result
    have housed := run_housed _ together alone
    rw [Housed,same] at housed
    exact in_order_of_housed actions result housed id

/-- The times of one minute, and whole numbers for floats. -/
def minuteText (second : Fin 60) : Json.Text :=
  "2024-01-01T00:00:".toList ++ [(second.val / 10).digitChar,(second.val % 10).digitChar,'Z']

def minuteWire : Wire Nat (Fin 60) where
  toFloats := wholes
  unsupported _ := "json: unsupported value: NaN".toList
  parseFloat token := unsigned (tokenBytes token)
  formatTime second := .ok (minuteText second)
  parseTime text := (List.finRange 60).find? fun second => minuteText second = text
  zeroTime := 0
  parse_marshal x n known := by
    simp only [wholes] at known
    split at known
    · obtain rfl := Option.some.inj known
      exact (if_neg (decimal_ne_nil x)).trans (decimalValue_decimal x)
    · cases known
  parse_formatTime second text known := by
    obtain rfl := Except.ok.inj known
    exact List.find?_isSome.mpr ⟨second,List.mem_finRange second,by simp⟩

def slowEvent : TelemetryEvent Nat (Fin 60) := ⟨['s'],['c'],7,1000,100,0⟩

def fastEvent : TelemetryEvent Nat (Fin 60) := ⟨['s'],['c'],7,10,100,5⟩

theorem slowEvent_published : ∃ message, publishTelemetry minuteWire slowEvent = .ok message := ⟨_,rfl⟩

theorem fastEvent_published : ∃ message, publishTelemetry minuteWire fastEvent = .ok message := ⟨_,rfl⟩

theorem slowEvent_reread : slowEvent.reread minuteWire = slowEvent := by decide

theorem fastEvent_reread : fastEvent.reread minuteWire = fastEvent := by decide

/-- With one partition the balancer has no choice. -/
theorem publish_alone (wire : Wire F T) (b : Bus 1 F T) (e : TelemetryEvent F T) (p : Fin 1) :
    ∃ o b', publish wire b e p = some (o,b') := by
  unfold publish
  split
  · exact ⟨_,_,rfl⟩
  · rw [if_pos (fun q => by rw [Subsingleton.elim p q])]
    exact ⟨_,_,rfl⟩

theorem onePartition_ordered_iff : ∃ os b,
    run (Bus.step minuteWire) (publishAll [(slowEvent,(0 : Fin 1)),(fastEvent,0)]) newBus = some (os,b) ∧
    ((∀ actions es t, publications actions = [(slowEvent,(0 : Fin 1)),(fastEvent,0)] →
      run (Bus.step minuteWire) actions newBus = some (es,t) →
        ∀ id, InOrder minuteWire id [(slowEvent,(0 : Fin 1)),(fastEvent,0)] t) ↔
    EachStep (Bus.step minuteWire) (Together minuteWire)
      (publishAll [(slowEvent,(0 : Fin 1)),(fastEvent,0)]) newBus) := by
  obtain ⟨o,b,first⟩ := publish_alone minuteWire newBus slowEvent 0
  obtain ⟨o',b',second⟩ := publish_alone minuteWire b fastEvent 0
  have legal : run (Bus.step minuteWire) (publishAll [(slowEvent,(0 : Fin 1)),(fastEvent,0)]) newBus =
      some ([o,o'],b') := run_cons first (run_cons second rfl)
  exact ⟨_,_,legal,telemetry_ordered_iff _ legal⟩

/-- Two events on two empty partitions, the second read first. -/
def crossedReads (first second : TelemetryEvent F T) : List (Action 2 F T) :=
  publishAll [(first,0),(second,1)] ++ [.consume 1 ['t'],.consume 0 ['t']]

theorem run_crossedReads (wire : Wire F T) (known : publishTelemetry wire e = .ok m)
    (known' : publishTelemetry wire e' = .ok m') :
    ∃ es t, run (Bus.step wire) (crossedReads e e') newBus = some (es,t) ∧
      t.handled = [(e'.reread wire,1),(e.reread wire,0)] ∧ (∀ p, t.topic.next p = (t.topic.log p).length) ∧
      t.redis = recorded wire.toFloats (recorded wire.toFloats ⟨∅,fun _ => none⟩ (report (e'.reread wire)) ['t'])
        (report (e.reread wire)) ['t'] := by
  have arrives := (publishTelemetry_ok known).2
  have arrives' := (publishTelemetry_ok known').2
  simp [crossedReads,publishAll,run,Bus.step,publish,consume,handle,newBus,Topic.read,Topic.append,Topic.empty,
    known,known',arrives,arrives',Fin.forall_fin_two]

/-- The older event is the last to reach the handler, and stays on the leaderboard. -/
theorem crossedReads_out_of_order : ∃ es t,
    run (Bus.step minuteWire) (crossedReads slowEvent fastEvent) newBus = some (es,t) ∧
    ofSubmission ['s'] (publishedFrom minuteWire 0 (publications (crossedReads slowEvent fastEvent))) =
      [(slowEvent,0),(fastEvent,1)] ∧
    t.handled = [(fastEvent,1),(slowEvent,0)] ∧ (∀ p, t.topic.next p = (t.topic.log p).length) ∧
    t.redis.zset.lookup ['s'] = some (score wholes (report slowEvent)) ∧
    score wholes (report slowEvent) ≠ score wholes (report fastEvent) ∧
    ¬InOrder minuteWire ['s'] (publications (crossedReads slowEvent fastEvent)) t := by
  obtain ⟨m,known⟩ := slowEvent_published
  obtain ⟨m',known'⟩ := fastEvent_published
  obtain ⟨es,t,result,handled,read,redis⟩ := run_crossedReads minuteWire known known'
  rw [slowEvent_reread,fastEvent_reread] at handled redis
  have published : publishedFrom minuteWire 0 (publications (crossedReads slowEvent fastEvent)) =
      [(slowEvent,0),(fastEvent,1)] := by
    have pubs : publications (crossedReads slowEvent fastEvent) = [(slowEvent,0),(fastEvent,1)] := rfl
    simp [pubs,known,known',slowEvent_reread,fastEvent_reread,publishedFrom]
  have all : ofSubmission ['s'] [(slowEvent,0),(fastEvent,1)] = [(slowEvent,0),(fastEvent,1)] := rfl
  refine ⟨es,t,result,?_,handled,read,?_,by decide,?_⟩
  · rw [published,all]
  · rw [redis]
    exact (recorded_same wholes _ (report slowEvent) ['t']).1
  · intro ordered
    have same := (ordered.latest read).1
    rw [published,handled,all] at same
    exact absurd same (by decide)

end TradingPlatform.Queue
