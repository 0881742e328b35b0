import TradingPlatform.Documents
import TradingPlatform.Ranking

/-! The events of `pkg/queue/messages.go` and their JSON. `float64` and `time.Time` are known by their
texts only: what a text is read back as is all that is asked of them. -/
namespace TradingPlatform.Queue

open Text Json Documents
open Leaderboard.Ranking (Floats)

/-- Strings are texts here: `json.Marshal` replaces bytes that are none. -/
structure TelemetryEvent (F T : Type) where
  submissionID : Json.Text
  contestantID : Json.Text
  tps : F
  p99LatencyMS : F
  successRate : F
  timestamp : T
  deriving DecidableEq

/-- Floats and times on the wire. A float has a token or the text of an error, and `ParseFloat` reads
its token as the same float. A time has a text or an error too, and its text is always read; what it
is read as has lost the monotonic clock. -/
structure Wire (F T : Type) extends Floats F where
  unsupported : F → Json.Text
  parseFloat : Json.Text → Option F
  formatTime : T → Except Json.Text Json.Text
  parseTime : Json.Text → Option T
  zeroTime : T
  parse_marshal : ∀ x n, marshal x = some n → parseFloat n.token = some x
  parse_formatTime : ∀ t text, formatTime t = .ok text → (parseTime text).isSome

variable {F T : Type}

def Wire.token (wire : Wire F T) (x : F) : Except Json.Text Number :=
  match wire.marshal x with
  | some n => .ok n
  | none => .error (wire.unsupported x)

/-- The members of an event, in the order of the fields. -/
def eventDatum (e : TelemetryEvent F T) (tps p99 rate : Number) (time : Json.Text) : Datum :=
  .obj [("submission_id".toList,.str (utf8 e.submissionID)),("contestant_id".toList,.str (utf8 e.contestantID)),
    ("tps".toList,.num tps),("p99_latency_ms".toList,.num p99),("success_rate".toList,.num rate),
    ("timestamp".toList,.str (utf8 time))]

/-- The first field that cannot be written is the error. -/
def serialize (wire : Wire F T) (e : TelemetryEvent F T) : Except Json.Text Bytes := do
  let tps ← wire.token e.tps
  let p99 ← wire.token e.p99LatencyMS
  let rate ← wire.token e.successRate
  let time ← wire.formatTime e.timestamp
  return marshal (eventDatum e tps p99 rate time)

/-- `UnmarshalJSON` of a time. -/
def intoTime (parse : Json.Text → Option T) (put : T → σ → σ) : Doc → σ → Option σ
  | .str s, v => (parse s).map fun t => put t v
  | .null, v => some v
  | _, _ => none

def eventFields (wire : Wire F T) : List (Slot (TelemetryEvent F T)) :=
  [⟨"submission_id".toList,intoString fun s e => { e with submissionID := runes s }⟩,
    ⟨"contestant_id".toList,intoString fun s e => { e with contestantID := runes s }⟩,
    ⟨"tps".toList,intoFloat wire.parseFloat fun x e => { e with tps := x }⟩,
    ⟨"p99_latency_ms".toList,intoFloat wire.parseFloat fun x e => { e with p99LatencyMS := x }⟩,
    ⟨"success_rate".toList,intoFloat wire.parseFloat fun x e => { e with successRate := x }⟩,
    ⟨"timestamp".toList,intoTime wire.parseTime fun t e => { e with timestamp := t }⟩]

/-- Fields that a document does not set keep their zero value. -/
def deserializeTelemetryEvent (wire : Wire F T) (data : Bytes) : Option (TelemetryEvent F T) :=
  (document data).bind (assign (eventFields wire) ⟨[],[],wire.zero,wire.zero,wire.zero,wire.zeroTime⟩)

/-- What a time is read back as. -/
def Wire.reread (wire : Wire F T) (t : T) : T :=
  match wire.formatTime t with
  | .ok text => (wire.parseTime text).getD t
  | .error _ => t

/-- An event as the other side gets it: only its time stamp can differ. -/
def TelemetryEvent.reread (wire : Wire F T) (e : TelemetryEvent F T) : TelemetryEvent F T :=
  { e with timestamp := wire.reread e.timestamp }

variable {wire : Wire F T} {e : TelemetryEvent F T}

theorem Wire.marshal_token (token : wire.token x = .ok n) : wire.marshal x = some n := by
  unfold Wire.token at token
  split at token
  · rename_i marshals
    rwa [← Except.ok.inj token]
  · cases token

theorem bind_ok {x : Except ε α} {f : α → Except ε β} (result : x >>= f = .ok b) : ∃ a, x = .ok a ∧ f a = .ok b := by
  cases x with
  | error err => cases result
  | ok a => exact ⟨a,rfl,result⟩

theorem serialize_ok (written : serialize wire e = .ok payload) : ∃ tps p99 rate time,
    wire.marshal e.tps = some tps ∧ wire.marshal e.p99LatencyMS = some p99 ∧ wire.marshal e.successRate = some rate ∧
    wire.formatTime e.timestamp = .ok time ∧ payload = marshal (eventDatum e tps p99 rate time) := by
  obtain ⟨tps,tps_known,written⟩ := bind_ok written
  obtain ⟨p99,p99_known,written⟩ := bind_ok written
  obtain ⟨rate,rate_known,written⟩ := bind_ok written
  obtain ⟨time,time_known,written⟩ := bind_ok written
  exact ⟨tps,p99,rate,time,Wire.marshal_token tps_known,Wire.marshal_token p99_known,Wire.marshal_token rate_known,
    time_known,(Except.ok.inj written).symm⟩

theorem eventFields_distinct (wire : Wire F T) : ((eventFields wire).map Slot.name).Nodup := by
  simp only [eventFields,List.map_cons,List.map_nil]
  decide

theorem intoFloat_written (put : F → σ → σ) (v : σ) (known : wire.marshal x = some n) :
    intoFloat wire.parseFloat put (Datum.num n).doc v = some (put x v) := by
  rw [Datum.doc,intoFloat,wire.parse_marshal x n known,Option.map_some]

/-- What `Serialize` writes, `DeserializeTelemetryEvent` reads. -/
theorem deserialize_serialize (written : serialize wire e = .ok payload) :
    deserializeTelemetryEvent wire payload = some (e.reread wire) := by
  obtain ⟨tps,p99,rate,time,tps_known,p99_known,rate_known,time_known,rfl⟩ := serialize_ok written
  obtain ⟨t,read⟩ := Option.isSome_iff_exists.mp (wire.parse_formatTime _ _ time_known)
  have shallow : (eventDatum e tps p99 rate time).doc.depth ≤ 10000 := by
    simp [eventDatum,Datum.doc,docMembers,Doc.depth,depthMembers]
  have fields := assign_exact (eventFields_distinct wire)
    ((eventFields wire).zip [(Datum.str (utf8 e.submissionID)).doc,(Datum.str (utf8 e.contestantID)).doc,
      (Datum.num tps).doc,(Datum.num p99).doc,(Datum.num rate).doc,(Datum.str (utf8 time)).doc])
    (fun _ member => (List.of_mem_zip member).1) ⟨[],[],wire.zero,wire.zero,wire.zero,wire.zeroTime⟩
  have stamp : intoTime wire.parseTime (fun t e => { e with timestamp := t }) (Datum.str (utf8 time)).doc
      { e with timestamp := wire.zeroTime } = some { e with timestamp := t } := by
    rw [Datum.doc,intoTime,runes_utf8_all,read,Option.map_some]
  rw [deserializeTelemetryEvent,document_marshal _ shallow,Option.bind_some,eventDatum,Datum.doc]
  refine fields.trans ?_
  simp only [eventFields,List.zip_cons_cons,List.zip_nil_left,List.foldlM_cons,List.foldlM_nil,intoString_written,
    intoFloat_written _ _ tps_known,intoFloat_written _ _ p99_known,intoFloat_written _ _ rate_known,runes_utf8_all,
    Option.bind_eq_bind,Option.bind_some,stamp]
  rw [TelemetryEvent.reread,Wire.reread,time_known]
  simp [read]

/-- The two functions alone, for what holds whatever they do. -/
structure Codec (F T : Type) where
  serialize : TelemetryEvent F T → Except Json.Text Bytes
  deserialize : Bytes → Option (TelemetryEvent F T)

def Wire.codec (wire : Wire F T) : Codec F T := ⟨serialize wire,deserializeTelemetryEvent wire⟩

end TradingPlatform.Queue
