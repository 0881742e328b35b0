import TradingPlatform.Json
import TradingPlatform.Objects
import TradingPlatform.Runs

/-! `Reconcile` of `pkg/controller/benchmark_controller.go`, cut at its calls to the API server.
Calls for different runs interleave, those for one run do not; any call may fail and leave the
cluster as it is. -/
namespace TradingPlatform.Controller

open Json Objects Runs

/-- The spec of a BenchmarkRun; what is missing or no string reads as empty. -/
structure Spec where
  contestantID : Text
  submissionID : Text
  image : Text
  duration : Text
  deriving DecidableEq, Repr

structure Container where
  name : Text
  image : Text
  ports : List Nat
  limits : List (Text × Text)
  deriving DecidableEq, Repr

inductive Manifest where
  | space (labels : List (Text × Text))
  | resourceQuota (hard : List (Text × Text))
  | networkPolicy (selector : List (Text × Text)) (types : List Text) (ingress : List (List Nat))
      (egress : List (List Nat))
  | pod (labels : List (Text × Text)) (containers : List Container)
  deriving DecidableEq, Repr

inductive Kind where
  | resourceQuota | networkPolicy | pod
  deriving DecidableEq, Repr

abbrev Key := Kind × Text

def runNamespace (sp : Spec) : Text := "run-".toList ++ sp.submissionID

def runLimits : Key := (.resourceQuota,"run-limits".toList)

def blockEgress : Key := (.networkPolicy,"block-egress".toList)

def contestantEngine : Key := (.pod,"contestant-engine".toList)

def namespaceOf (sp : Spec) : Manifest :=
  .space [("run-id".toList,sp.submissionID),("role".toList,"contestant-namespace".toList)]

def quota : Manifest := .resourceQuota [("limits.cpu".toList,"2.0".toList),("limits.memory".toList,"1Gi".toList)]

/-- No rule for egress denies all of it. -/
def netPol : Manifest :=
  .networkPolicy [("role".toList,"contestant".toList)] ["Egress".toList,"Ingress".toList] [[8080,2112]] []

def podOf (sp : Spec) : Manifest :=
  .pod [("role".toList,"contestant".toList),("contestant-id".toList,sp.contestantID)]
    [⟨"engine".toList,sp.image,[8080,2112],[("cpu".toList,"1.0".toList),("memory".toList,"512Mi".toList)]⟩]

/-- The images a manifest runs. -/
def Manifest.images : Manifest → List Text
  | .pod _ containers => containers.map Container.image
  | _ => []

/-- Empty, Running, Succeeded, Failed, or any other text. -/
inductive RunState where
  | empty | running | succeeded | failed | unknown
  deriving DecidableEq, Repr

/-- The success rate is in hundredths of a per cent. -/
structure Status where
  state : RunState
  startedAt : Text
  completedAt : Text
  totalOrders : Nat
  successRate : Nat
  deriving DecidableEq, Repr

def noStatus : Status := ⟨.empty,[],[],0,0⟩

/-- What is used of Go's `time`, with times and durations in nanoseconds: `ParseDuration`, and
`Format` and `Parse` with RFC3339. -/
structure TimeLib where
  parseDuration : Text → Option Int
  format : Int → Text
  parse : Text → Option Int

def second : Int := 1000000000

def duration (lib : TimeLib) (sp : Spec) : Int :=
  (lib.parseDuration (if sp.duration = [] then "60s".toList else sp.duration)).getD (60 * second)

inductive Result where
  | done
  | requeueAfter (d : Int)
  | error (message : Text)
  deriving DecidableEq, Repr

/-- The next call of the `Reconcile` of a run: creating one of the objects, the update to Running,
deleting the namespace after the time that has elapsed, or the update to Succeeded. -/
inductive Stage where
  | idle
  | space
  | quota
  | policy
  | pod
  | running
  | delete (elapsed : Int)
  | succeeded
  deriving DecidableEq, Repr

/-- The clock never goes back. -/
structure Cluster (ι : Type) where
  store : Store Text Key Manifest
  status : ι → Status
  stage : ι → Stage
  clock : Int

inductive Event (ι : Type) where
  | working (r : ι)
  | elapsed (r : ι)
  | tornDown (r : ι) (elapsed : Int)
  | returned (r : ι) (result : Result)
  deriving DecidableEq

/-- `Reconcile` starts with a Get that finds the run, or with one that does not; the other calls
are made one by one. -/
inductive Action (ι : Type) where
  | reconcile (r : ι) (now later : Int)
  | missed (r : ι) (err : Option Text)
  | call (r : ι) (now : Int) (err : Option Text)
  deriving DecidableEq

def Action.run : Action ι → ι
  | .reconcile r _ _ | .missed r _ | .call r _ _ => r

variable {ι : Type} [DecidableEq ι]

def Cluster.enter (c : Cluster ι) (r : ι) (stage : Stage) : Cluster ι :=
  { c with stage := Function.update c.stage r stage }

def Cluster.setStatus (c : Cluster ι) (r : ι) (status : Status) : Cluster ι :=
  { c with status := Function.update c.status r status }

/-- `Reconcile` from its Get to its next call. -/
def reconcile (lib : TimeLib) (spec : ι → Option Spec) (c : Cluster ι) (r : ι) (now later : Int) :
    Option (Event ι × Cluster ι) :=
  if c.stage r = .idle ∧ c.clock ≤ now ∧ now ≤ later then
    let c := { c with clock := later }
    match spec r with
    | none => some (.returned r (.error "invalid spec: %!w(<nil>)".toList),c)
    | some sp =>
      match (c.status r).state with
      | .empty => some (.working r,c.enter r .space)
      | .running =>
        -- a start time that cannot be read is reset to now
        let startedAt := (lib.parse (c.status r).startedAt).getD now
        let elapsed := later - startedAt
        if duration lib sp ≤ elapsed then some (.elapsed r,c.enter r (.delete elapsed))
        else some (.returned r (.requeueAfter (duration lib sp - elapsed)),c)
      | _ => some (.returned r .done,c)
  else none

/-- The answer to a Create: an object that is already there will do. -/
def created (c : Cluster ι) (r : ι) (sp : Spec) (answer : Answer × Store Text Key Manifest) (next : Stage) :
    Event ι × Cluster ι :=
  match answer with
  | (.notFound,_) => (.returned r (.error ("namespaces \"".toList ++ runNamespace sp ++ "\" not found".toList)),
      c.enter r .idle)
  | (_,store) => (.working r,{ c with store := store }.enter r next)

def call (lib : TimeLib) (sp : Spec) (c : Cluster ι) (r : ι) (now : Int) : Option (Event ι × Cluster ι) :=
  match c.stage r with
  | .idle => none
  | .space => some (created c r sp (c.store.createSpace (runNamespace sp) (namespaceOf sp)) .quota)
  | .quota => some (created c r sp (c.store.create (runNamespace sp) runLimits quota) .policy)
  | .policy => some (created c r sp (c.store.create (runNamespace sp) blockEgress netPol) .pod)
  | .pod => some (created c r sp (c.store.create (runNamespace sp) contestantEngine (podOf sp)) .running)
  | .running => some (.returned r (.requeueAfter (5 * second)),
      (c.setStatus r { noStatus with state := .running, startedAt := lib.format now }).enter r .idle)
  | .delete elapsed => some (.tornDown r elapsed,
      { c with store := (c.store.deleteSpace (runNamespace sp)).2 }.enter r .succeeded)
  | .succeeded => some (.returned r .done,
      (c.setStatus r ⟨.succeeded,[],lib.format now,150000,9998⟩).enter r .idle)

def step (lib : TimeLib) (spec : ι → Option Spec) (c : Cluster ι) : Action ι → Option (Event ι × Cluster ι)
  | .reconcile r now later => reconcile lib spec c r now later
  | .missed r err =>
    if c.stage r = .idle then some (.returned r (match err with | none => .done | some err => .error err),c) else none
  | .call r now err =>
    match spec r with
    | none => none
    | some sp =>
      if c.stage r ≠ .idle ∧ c.clock ≤ now then
        let c := { c with clock := now }
        match err with
        | none => call lib sp c r now
        | some err => some (.returned r (.error err),c.enter r .idle)
      else none

def start (store : Store Text Key Manifest) (clock : Int) : Cluster ι :=
  ⟨store,fun _ => noStatus,fun _ => .idle,clock⟩

/-- The objects of a run's namespace, in the order of their creation. -/
def contents (sp : Spec) : List (Key × Manifest) :=
  [(runLimits,quota),(blockEgress,netPol),(contestantEngine,podOf sp)]

theorem contents_distinct (sp : Spec) : ((contents sp).map Prod.fst).Nodup := by
  simp [contents,runLimits,blockEgress,contestantEngine]

theorem runNamespace_injective (same : runNamespace sp = runNamespace sp') : sp.submissionID = sp'.submissionID :=
  List.append_cancel_left same

end TradingPlatform.Controller
