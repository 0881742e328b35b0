import TradingPlatform.Documents
import TradingPlatform.Paths
import TradingPlatform.Runs

/-! The submission service of `pkg/submission/handler.go`. Its handlers and the goroutines they
start share the store and the submissions it points to. The store has a lock, the submissions have
none: a goroutine writes fields of one while a response with it is being encoded, and the model cuts
both where the other can come in between. A field is taken to be read and written in one go. -/
namespace TradingPlatform.Submissions

open Documents Text Paths

inductive SubmissionStatus where
  | pending
  | compiling
  | success
  | failed
  deriving DecidableEq, Repr

structure Submission where
  id : Bytes
  contestantID : Bytes
  status : SubmissionStatus
  imageTag : Bytes
  logs : Bytes
  createdAt : Int
  deriving DecidableEq, Repr

/-- The sixteen bytes `uuid.New` draws. -/
abbrev Uuid := { raw : List UInt8 // raw.length = 16 }

def hexDigit (n : UInt8) : UInt8 := if n < 10 then 48 + n else 87 + n

def hex (raw : List UInt8) : Bytes := raw.flatMap fun b => [hexDigit (b / 16),hexDigit (b % 16)]

def Uuid.string (u : Uuid) : Bytes :=
  hex (u.val.take 4) ++ 45 :: (hex ((u.val.drop 4).take 2) ++ 45 :: (hex ((u.val.drop 6).take 2) ++
    45 :: (hex ((u.val.drop 8).take 2) ++ 45 :: hex (u.val.drop 10))))

structure GitBody where
  contestantID : Bytes
  gitURL : Bytes

def gitFields : List (Slot GitBody) :=
  [⟨"contestant_id".toList,intoString fun s b => { b with contestantID := s }⟩,
    ⟨"git_url".toList,intoString fun s b => { b with gitURL := s }⟩]

def decodeGit (body : Bytes) : Option GitBody := (decode body).bind (assign gitFields ⟨[],[]⟩)

/-- What a handler or a goroutine still has to do with a submission. -/
inductive Task where
  | creating (filename data : Bytes)
  | copying (destPath data : Bytes) (offset : Nat)
  | starting (gitURL : Bytes)
  | marked (gitURL : Bytes)
  | cloning (gitURL : Bytes)
  | judged (logs : Bytes)
  | logged
  | idle
  deriving DecidableEq, Repr

structure Entry where
  sub : Submission
  task : Task
  deriving DecidableEq, Repr

/-- A response that is being encoded, field by field. -/
inductive Reader where
  | holding (code : Nat) (r : Nat)
  | encoding (code : Nat) (r : Nat) (status : SubmissionStatus)
  | written
  deriving DecidableEq, Repr

abbrev Files := Bytes → Option Bytes

structure State where
  entries : List Entry
  data : Bytes → Option Nat
  files : Files
  readers : List Reader

def newHandler : State := ⟨[],fun _ => none,fun _ => none,[]⟩

inductive Job where
  | create (ok : Bool)
  | copy (n : Nat)
  | endCopy (failed : Bool)
  | mark
  | save
  | gitWrite (rel content : Bytes)
  | clone (err : Option Bytes) (out : Bytes)
  | log
  deriving DecidableEq, Repr

inductive Action where
  | upload (contestantID : Bytes) (source : Option (Bytes × Bytes)) (uuid : Uuid) (now : Int)
  | gitSubmission (body : Bytes) (uuid : Uuid) (now : Int)
  | getStatus (path : Bytes)
  | work (r : Nat) (job : Job)
  | readStatus (k : Nat)
  | readLogs (k : Nat)

inductive Event where
  | refused (error : Nat × String)
  | created (id : Bytes) (source : Option (Bytes × Bytes))
  | copied (r : Nat) (destPath data : Bytes) (offset : Nat)
  | shown (r : Nat) (status : SubmissionStatus)
  | responded (code : Nat) (sub : Submission)
  | quiet

/-- A write of a file at the writer's own offset. -/
def writeAt (content : Bytes) (offset : Nat) (chunk : Bytes) : Bytes :=
  content.take offset ++ List.replicate (offset - content.length) 0 ++ chunk ++ content.drop (offset + chunk.length)

def destDir (dir id : Bytes) : Bytes := join [dir,id]

def cloneLogs (err : Option Bytes) (out : Bytes) : Bytes :=
  match err with
  | some message => ascii "git clone failed: " ++ message ++ 10 :: out
  | none => out

/-- The steps of `handleUpload` after the store, and those of the goroutine of `handleGitSubmission`. -/
def work (dir : Bytes) (e : Entry) (files : Files) (r : Nat) : Job → Option (Event × Entry × Files)
  | .create ok =>
    match e.task with
    | .creating filename data =>
      if ok then
        let destPath := join [dir,e.sub.id ++ ext filename]
        some (.quiet,{ e with task := .copying destPath data 0 },Function.update files destPath (some []))
      else some (.refused (500,"could not save file"),{ e with task := .idle },files)
    | _ => none
  | .copy n =>
    match e.task with
    | .copying destPath data offset =>
      let chunk := (data.drop offset).take n
      some (.quiet,{ e with task := .copying destPath data (offset + chunk.length) },
        Function.update files destPath ((files destPath).map fun content => writeAt content offset chunk))
    | _ => none
  | .endCopy failed =>
    match e.task with
    | .copying destPath data offset =>
      if failed ∨ offset = data.length then some (.copied r destPath data offset,{ e with task := .idle },files) else none
    | _ => none
  | .mark =>
    match e.task with
    | .starting url => some (.quiet,⟨{ e.sub with status := .compiling },.marked url⟩,files)
    | _ => none
  | .save =>
    match e.task with
    | .marked url => some (.quiet,{ e with task := .cloning url },files)
    | .logged => some (.quiet,{ e with task := .idle },files)
    | _ => none
  | .gitWrite rel content =>
    match e.task with
    | .cloning _ => some (.quiet,e,Function.update files (destDir dir e.sub.id ++ slash :: rel) (some content))
    | _ => none
  | .clone err out =>
    match e.task with
    | .cloning _ =>
      some (.quiet,⟨{ e.sub with status := if err.isSome then .failed else .success },.judged (cloneLogs err out)⟩,files)
    | _ => none
  | .log =>
    match e.task with
    | .judged logs => some (.quiet,⟨{ e.sub with logs := logs },.logged⟩,files)
    | _ => none

/-- A new submission, saved. -/
def State.submit (s : State) (uuid : Uuid) (contestantID : Bytes) (now : Int) (task : Task) : State :=
  let sub : Submission := ⟨Uuid.string uuid,contestantID,.pending,[],[],now⟩
  { s with entries := s.entries ++ [⟨sub,task⟩], data := Function.update s.data sub.id (some s.entries.length) }

def step (dir : Bytes) (s : State) : Action → Option (Event × State)
  | .upload contestantID source uuid now =>
    if contestantID = [] then some (.refused (400,"missing X-Contestant-ID header"),s)
    else match source with
      | none => some (.refused (400,"missing source file"),s)
      | some (filename,data) => some (.created (Uuid.string uuid) (some (filename,data)),
          s.submit uuid contestantID now (.creating filename data))
  | .gitSubmission body uuid now =>
    match decodeGit body with
    | some b =>
      if b.gitURL = [] then some (.refused (400,"invalid request body"),s)
      else
        let s' := s.submit uuid b.contestantID now (.starting b.gitURL)
        -- the goroutine is started and the response is on its way
        some (.created (Uuid.string uuid) none,{ s' with readers := s.readers ++ [.holding 202 s.entries.length] })
    | none => some (.refused (400,"invalid request body"),s)
  | .getStatus path =>
    match s.data (base path) with
    | some r => some (.quiet,{ s with readers := s.readers ++ [.holding 200 r] })
    | none => some (.refused (404,"submission not found"),s)
  | .work r job =>
    (s.entries[r]?).bind fun e => (work dir e s.files r job).map fun (event,e',files) =>
      (event,{ s with
        entries := s.entries.set r e'
        files := files
        data := if job = .save then Function.update s.data e.sub.id (some r) else s.data
        readers := s.readers ++ match event with
          | .copied r _ _ _ => [.holding 202 r]
          | _ => [] })
  | .readStatus k =>
    match s.readers[k]? with
    | some (.holding code r) => (s.entries[r]?).map fun e =>
      (.shown r e.sub.status,{ s with readers := s.readers.set k (.encoding code r e.sub.status) })
    | _ => none
  | .readLogs k =>
    match s.readers[k]? with
    | some (.encoding code r status) => (s.entries[r]?).map fun e =>
      (.responded code { e.sub with status := status },{ s with readers := s.readers.set k .written })
    | _ => none

end TradingPlatform.Submissions
