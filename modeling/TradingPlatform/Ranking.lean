import Mathlib.Data.List.AList
import TradingPlatform.Json
import TradingPlatform.Runs

/-! `UpdateScore` of `pkg/leaderboard/ranking.go` as commands on a Redis store. Calls from the
telemetry consumer and from the debug endpoint interleave between the commands, and a command
may fail without effect. -/
namespace TradingPlatform.Leaderboard.Ranking

open Json Runs

/-- What the package needs of float64: arithmetic, a test against zero, `FormatFloat` with two
decimals, and the token of `json.Marshal`, which refuses infinities and NaN. -/
structure Floats (F : Type) where
  zero : F
  hundred : F
  thousand : F
  mul : F → F → F
  div : F → F → F
  positive : F → Bool
  fixed : F → Text
  marshal : F → Option Number

/-- The arguments of a call. -/
structure Report (F : Type) where
  submissionID : Text
  contestantID : Text
  tps : F
  p99Latency : F
  successRate : F

structure Metadata where
  submissionID : Text
  contestantID : Text
  tps : Text
  p99Latency : Text
  successRate : Text
  score : Text
  timestamp : Text
  deriving DecidableEq, Repr

/-- The event on the channel `leaderboard:updates`. -/
structure Update where
  submissionID : Text
  contestantID : Text
  score : Number

def Update.members (u : Update) : List (Text × Scalar) :=
  [("contestant_id".toList,.text u.contestantID),("score".toList,.number u.score),
    ("submission_id".toList,.text u.submissionID),("type".toList,.text "new_run".toList)]

/-- A map is marshalled with its keys sorted. -/
def eventData (u : Update) : Text := writeObject u.members

variable {F : Type}

def score (ops : Floats F) (r : Report F) : F :=
  if ops.positive r.successRate && ops.positive r.p99Latency then
    ops.mul (ops.mul r.tps (ops.div ops.thousand r.p99Latency)) (ops.div r.successRate ops.hundred)
  else ops.zero

def metadata (ops : Floats F) (r : Report F) (now : Text) : Metadata :=
  { submissionID := r.submissionID
    contestantID := r.contestantID
    tps := ops.fixed r.tps
    p99Latency := ops.fixed r.p99Latency
    successRate := ops.fixed r.successRate
    score := ops.fixed (score ops r)
    timestamp := now }

/-- A hash and whether it has a time to live. -/
structure Hash where
  fields : Metadata
  expires : Bool
  deriving DecidableEq, Repr

/-- The sorted set `leaderboard:global`, and the hashes by the submission in their key. -/
structure Redis (F : Type) where
  zset : AList fun _ : Text => F
  hash : Text → Option Hash

abbrev CallRef := Nat

/-- How far a call has come: the next command is ZAdd, HSet, Expire, Publish, or none. -/
inductive Call (F : Type) where
  | absent
  | scored (r : Report F)
  | ranked (r : Report F)
  | saved (r : Report F)
  | dated (r : Report F)
  | returned (r : Report F) (result : F)
  | failed (r : Report F) (message : Text)

structure State (F : Type) where
  redis : Redis F
  call : CallRef → Call F

def start : State F := ⟨⟨∅,fun _ => none⟩,fun _ => .absent⟩

/-- Commands come with the error they fail with, if they do. A hash with a time to live may
lapse at any time. -/
inductive Action (F : Type) where
  | updateScore (k : CallRef) (r : Report F)
  | zAdd (k : CallRef) (err : Option Text)
  | hSet (k : CallRef) (now : Text) (err : Option Text)
  | expire (k : CallRef) (err : Option Text)
  | publish (k : CallRef) (err : Option Text)
  | lapse (id : Text)

inductive Event where
  | ranked (k : CallRef) (id : Text)
  | saved (k : CallRef) (id : Text)
  | lapsed (id : Text)
  | published (message : Text)
  | quiet
  deriving DecidableEq, Repr

def State.proceed (s : State F) (k : CallRef) (c : Call F) : State F :=
  { s with call := Function.update s.call k c }

def Redis.setHash (redis : Redis F) (id : Text) (hash : Option Hash) : Redis F :=
  { redis with hash := Function.update redis.hash id hash }

def zAdd (ops : Floats F) (s : State F) (k : CallRef) (err : Option Text) : Option (Event × State F) :=
  match s.call k with
  | .scored r =>
    match err with
    | none =>
      let redis := { s.redis with zset := s.redis.zset.insert r.submissionID (score ops r) }
      some (.ranked k r.submissionID,{ s with redis := redis }.proceed k (.ranked r))
    | some err => some (.quiet,s.proceed k (.failed r ("failed to add ZSET entry: ".toList ++ err)))
  | _ => none

def hSet (ops : Floats F) (s : State F) (k : CallRef) (now : Text) (err : Option Text) : Option (Event × State F) :=
  match s.call k with
  | .ranked r =>
    match err with
    | none =>
      -- the hash keeps the time to live it has
      let expires := ((s.redis.hash r.submissionID).map Hash.expires).getD false
      let redis := s.redis.setHash r.submissionID (some ⟨metadata ops r now,expires⟩)
      some (.saved k r.submissionID,{ s with redis := redis }.proceed k (.saved r))
    | some err => some (.quiet,s.proceed k (.failed r ("failed to save metadata: ".toList ++ err)))
  | _ => none

/-- The result of Expire is not looked at. -/
def expire (s : State F) (k : CallRef) (err : Option Text) : Option (Event × State F) :=
  match s.call k with
  | .saved r =>
    let hash := (s.redis.hash r.submissionID).map fun hash => { hash with expires := hash.expires || err.isNone }
    some (.quiet,{ s with redis := s.redis.setHash r.submissionID hash }.proceed k (.dated r))
  | _ => none

/-- Nor is that of Publish, which is left out for a score that cannot be marshalled. -/
def publish (ops : Floats F) (s : State F) (k : CallRef) (err : Option Text) : Option (Event × State F) :=
  match s.call k with
  | .dated r =>
    let event := match ops.marshal (score ops r), err with
      | some n, none => .published (eventData ⟨r.submissionID,r.contestantID,n⟩)
      | _, _ => .quiet
    some (event,s.proceed k (.returned r (score ops r)))
  | _ => none

def State.step (ops : Floats F) (s : State F) : Action F → Option (Event × State F)
  | .updateScore k r =>
    match s.call k with
    | .absent => some (.quiet,s.proceed k (.scored r))
    | _ => none
  | .zAdd k err => zAdd ops s k err
  | .hSet k now err => hSet ops s k now err
  | .expire k err => expire s k err
  | .publish k err => publish ops s k err
  | .lapse id =>
    match s.redis.hash id with
    | some ⟨_,true⟩ => some (.lapsed id,{ s with redis := s.redis.setHash id none })
    | _ => none

/-- The call that set the score of a submission. -/
def ranker (id : Text) (es : List Event) : Option CallRef :=
  es.reverse.findSome? fun
    | .ranked k i => if i = id then some k else none
    | _ => none

/-- Where the hash of a submission comes from: a call, or nowhere since it has lapsed. -/
def holder (id : Text) (es : List Event) : Option (Option CallRef) :=
  es.reverse.findSome? fun
    | .saved k i => if i = id then some (some k) else none
    | .lapsed i => if i = id then some none else none
    | _ => none

@[simp] theorem ranker_append (id : Text) (es : List Event) (e : Event) :
    ranker id (es ++ [e]) = match e with
      | .ranked k i => if i = id then some k else ranker id es
      | _ => ranker id es := by
  cases e with
  | ranked k i => by_cases same : i = id <;> simp [ranker,same]
  | _ => simp [ranker]

@[simp] theorem holder_append (id : Text) (es : List Event) (e : Event) :
    holder id (es ++ [e]) = match e with
      | .saved k i => if i = id then some (some k) else holder id es
      | .lapsed i => if i = id then some none else holder id es
      | _ => holder id es := by
  cases e with
  | saved k i => by_cases same : i = id <;> simp [holder,same]
  | lapsed i => by_cases same : i = id <;> simp [holder,same]
  | _ => simp [holder]

def Event.writes : Event → Bool
  | .quiet | .published _ => false
  | _ => true

def Action.caller : Action F → Option CallRef
  | .updateScore k _ | .zAdd k _ | .hSet k _ _ | .expire k _ | .publish k _ => some k
  | .lapse _ => none

def Call.inProgress : Call F → Bool
  | .absent | .returned .. | .failed .. => false
  | _ => true

/-- The report of a call whose ZAdd went through. -/
def Call.written : Call F → Option (Report F)
  | .ranked r | .saved r | .dated r | .returned r _ => some r
  | _ => none

/-- The report of a call whose HSet went through. -/
def Call.kept : Call F → Option (Report F)
  | .saved r | .dated r | .returned r _ => some r
  | _ => none

/-- Nothing comes between the two writes of a call that could part them: HSet does not fail, and
it is not done once another call has both ranked and saved the submission after this one's ZAdd. -/
def Orderly (es : List Event) (s : State F) : Action F → Prop
  | .hSet k _ err => err = none ∧ ∀ r, s.call k = .ranked r → ∀ k', ranker r.submissionID es = some k' →
      k' = k ∨ (s.call k').kept = none
  | _ => True

variable {ops : Floats F} {es : List Event} {s s' : State F}

structure Agrees (ops : Floats F) (es : List Event) (s : State F) : Prop where
  silent : ∀ k id, (s.call k).written = none → .ranked k id ∉ es ∧ .saved k id ∉ es
  told : ∀ k r, (s.call k).kept = some r → .saved k r.submissionID ∈ es
  unranked : ∀ id, ranker id es = none → s.redis.zset.lookup id = none
  ranked : ∀ id k, ranker id es = some k → ∃ r, (s.call k).written = some r ∧ r.submissionID = id ∧
    s.redis.zset.lookup id = some (score ops r)
  empty : ∀ id, holder id es = none ∨ holder id es = some none → s.redis.hash id = none
  held : ∀ id k, holder id es = some (some k) → ∃ r now expires, (s.call k).kept = some r ∧ r.submissionID = id ∧
    s.redis.hash id = some ⟨metadata ops r now,expires⟩
  settled : ∀ id k, ranker id es = some k → (s.call k).kept ≠ none →
    holder id es = some (some k) ∨ holder id es = some none

theorem start_agrees : Agrees ops [] (start : State F) := by
  refine ⟨by simp,by simp [start,Call.kept],?_,by simp [ranker],?_,by simp [holder],by simp [ranker]⟩
  · intro id _
    rfl
  · intro id _
    rfl

theorem proceed_call (s : State F) (k j : CallRef) (c : Call F) :
    (s.proceed k c).call j = if j = k then c else s.call j := by
  simp [State.proceed,Function.update_apply]

/-- Steps that write neither store. -/
theorem Agrees.keep (agrees : Agrees ops es s) (idle : e.writes = false)
    (written : ∀ k, (s'.call k).written = (s.call k).written) (kept : ∀ k, (s'.call k).kept = (s.call k).kept)
    (zset : s'.redis.zset = s.redis.zset)
    (hash : ∀ id, (s'.redis.hash id).map Hash.fields = (s.redis.hash id).map Hash.fields) :
    Agrees ops (es ++ [e]) s' := by
  have ranks (id : Text) : ranker id (es ++ [e]) = ranker id es := by cases e <;> simp_all [Event.writes]
  have holds (id : Text) : holder id (es ++ [e]) = holder id es := by cases e <;> simp_all [Event.writes]
  refine ⟨?_,?_,?_,?_,?_,?_,?_⟩
  · intro k id none
    rw [written] at none
    have before := agrees.silent k id none
    cases e <;> simp_all [Event.writes]
  · intro k r saved
    rw [kept] at saved
    simp [agrees.told k r saved]
  · intro id
    rw [ranks,zset]
    exact agrees.unranked id
  · intro id k
    rw [ranks,zset,written]
    exact agrees.ranked id k
  · intro id nowhere
    rw [holds] at nowhere
    have same := hash id
    rw [agrees.empty id nowhere] at same
    simpa using same
  · intro id k origin
    rw [holds] at origin
    obtain ⟨r,now,expires,known,named,before⟩ := agrees.held id k origin
    have same := hash id
    rw [before] at same
    obtain ⟨⟨fields,expires'⟩,after,rfl⟩ := Option.map_eq_some_iff.mp same
    exact ⟨r,now,expires',(kept k).trans known,named,after⟩
  · intro id k
    rw [ranks,holds,kept]
    exact agrees.settled id k

/-- A call that moves on without writing. -/
theorem Agrees.proceed (agrees : Agrees ops es s) (idle : e.writes = false) (before : s.call k = c)
    (written : c'.written = c.written) (kept : c'.kept = c.kept) : Agrees ops (es ++ [e]) (s.proceed k c') := by
  apply agrees.keep idle
  · intro j
    by_cases same : j = k <;> simp [proceed_call,same,before,written]
  · intro j
    by_cases same : j = k <;> simp [proceed_call,same,before,kept]
  · rfl
  · intro id
    rfl

/-- No log names a call as the source of anything before it has written. -/
theorem Agrees.unnamed (agrees : Agrees ops es s) (unwritten : (s.call k).written = none)
    (unkept : (s.call k).kept = none) (id : Text) :
    ranker id es ≠ some k ∧ holder id es ≠ some (some k) := by
  constructor
  · intro same
    obtain ⟨r,known,_⟩ := agrees.ranked id k same
    simp [unwritten] at known
  · intro same
    obtain ⟨r,now,expires,known,_⟩ := agrees.held id k same
    simp [unkept] at known

/-- What a step can do to the store and to the call it belongs to. -/
inductive Moves (ops : Floats F) (s : State F) : Action F → Event → State F → Prop
  | begin (k : CallRef) (r : Report F) (absent : s.call k = .absent) :
      Moves ops s (.updateScore k r) .quiet (s.proceed k (.scored r))
  | rank (k : CallRef) (r : Report F) (scored : s.call k = .scored r) :
      Moves ops s (.zAdd k none) (.ranked k r.submissionID)
        ({ s with redis := { s.redis with zset := s.redis.zset.insert r.submissionID (score ops r) } }.proceed k
          (.ranked r))
  | rankFails (k : CallRef) (r : Report F) (err message : Text) (scored : s.call k = .scored r) :
      Moves ops s (.zAdd k (some err)) .quiet (s.proceed k (.failed r message))
  | save (k : CallRef) (r : Report F) (now : Text) (expires : Bool) (ranked : s.call k = .ranked r) :
      Moves ops s (.hSet k now none) (.saved k r.submissionID)
        ({ s with redis := s.redis.setHash r.submissionID (some ⟨metadata ops r now,expires⟩) }.proceed k (.saved r))
  | saveFails (k : CallRef) (r : Report F) (now err message : Text) (ranked : s.call k = .ranked r) :
      Moves ops s (.hSet k now (some err)) .quiet (s.proceed k (.failed r message))
  | date (k : CallRef) (r : Report F) (err : Option Text) (hash : Option Hash)
      (fields : hash.map Hash.fields = (s.redis.hash r.submissionID).map Hash.fields) (saved : s.call k = .saved r) :
      Moves ops s (.expire k err) .quiet ({ s with redis := s.redis.setHash r.submissionID hash }.proceed k (.dated r))
  | publish (k : CallRef) (r : Report F) (err : Option Text) (e : Event) (idle : e.writes = false)
      (dated : s.call k = .dated r) :
      Moves ops s (.publish k err) e (s.proceed k (.returned r (score ops r)))
  | lapse (id : Text) : Moves ops s (.lapse id) (.lapsed id) { s with redis := s.redis.setHash id none }

theorem step_moves (a : Action F) (result : s.step ops a = some (e,s')) : Moves ops s a e s' := by
  cases a with
  | updateScore k r =>
    simp only [State.step] at result
    split at result
    · rename_i absent
      obtain ⟨rfl,rfl⟩ := Prod.mk.inj (Option.some.inj result)
      exact .begin k r absent
    · simp at result
  | zAdd k err =>
    simp only [State.step,zAdd] at result
    split at result
    · rename_i r scored
      cases err with
      | none =>
        obtain ⟨rfl,rfl⟩ := Prod.mk.inj (Option.some.inj result)
        exact .rank k r scored
      | some err =>
        obtain ⟨rfl,rfl⟩ := Prod.mk.inj (Option.some.inj result)
        exact .rankFails k r err _ scored
    · simp at result
  | hSet k now err =>
    simp only [State.step,hSet] at result
    split at result
    · rename_i r ranked
      cases err with
      | none =>
        obtain ⟨rfl,rfl⟩ := Prod.mk.inj (Option.some.inj result)
        exact .save k r now _ ranked
      | some err =>
        obtain ⟨rfl,rfl⟩ := Prod.mk.inj (Option.some.inj result)
        exact .saveFails k r now err _ ranked
    · simp at result
  | expire k err =>
    simp only [State.step,expire] at result
    split at result
    · rename_i r saved
      obtain ⟨rfl,rfl⟩ := Prod.mk.inj (Option.some.inj result)
      exact .date k r err _ (by simp [Function.comp_def]) saved
    · simp at result
  | publish k err =>
    simp only [State.step,publish] at result
    split at result
    · rename_i r dated
      obtain ⟨rfl,rfl⟩ := Prod.mk.inj (Option.some.inj result)
      refine .publish k r err _ ?_ dated
      split <;> rfl
    · simp at result
  | lapse id =>
    simp only [State.step] at result
    split at result
    · obtain ⟨rfl,rfl⟩ := Prod.mk.inj (Option.some.inj result)
      exact .lapse id
    · simp at result

theorem rank_agrees (agrees : Agrees ops es s) (scored : s.call k = .scored r) :
    Agrees ops (es ++ [.ranked k r.submissionID])
      ({ s with redis := { s.redis with zset := s.redis.zset.insert r.submissionID (score ops r) } }.proceed k
        (.ranked r)) := by
  have fresh := agrees.unnamed (k := k) (by rw [scored]; rfl) (by rw [scored]; rfl)
  refine ⟨?_,?_,?_,?_,?_,?_,?_⟩
  · intro j id none
    by_cases same : j = k
    · simp [proceed_call,same,Call.written] at none
    · simp only [proceed_call,if_neg same] at none
      simpa [same] using agrees.silent j id none
  · intro j r' saved
    by_cases same : j = k
    · simp [proceed_call,same,Call.kept] at saved
    · simp only [proceed_call,if_neg same] at saved
      simp [agrees.told j r' saved]
  · intro id none
    by_cases same : r.submissionID = id
    · simp [same] at none
    · simp only [ranker_append,if_neg same] at none
      simpa [State.proceed,AList.lookup_insert_ne (Ne.symm same)] using agrees.unranked id none
  · intro id j by_
    by_cases same : r.submissionID = id
    · subst same
      obtain rfl : k = j := by simpa using by_
      exact ⟨r,by simp [proceed_call,Call.written],rfl,by simp [State.proceed]⟩
    · simp only [ranker_append,if_neg same] at by_
      have other : j ≠ k := by
        rintro rfl
        exact (fresh id).1 by_
      simpa [proceed_call,other,State.proceed,AList.lookup_insert_ne (Ne.symm same)] using agrees.ranked id j by_
  · intro id nowhere
    exact agrees.empty id (by simpa using nowhere)
  · intro id j origin
    replace origin : holder id es = some (some j) := by simpa using origin
    have other : j ≠ k := by
      rintro rfl
      exact (fresh id).2 origin
    simpa [proceed_call,other,State.proceed] using agrees.held id j origin
  · intro id j by_ saved
    by_cases same : j = k
    · simp [proceed_call,same,Call.kept] at saved
    · simp only [proceed_call,if_neg same] at saved
      by_cases named : r.submissionID = id
      · simp [named,Ne.symm same] at by_
      · simp only [ranker_append,if_neg named] at by_
        simpa using agrees.settled id j by_ saved

/-- The saved fields are those of the call that ranked the submission, or that call is still to
save its own. -/
theorem save_agrees (agrees : Agrees ops es s) (ranked : s.call k = .ranked r) (now : Text) (expires : Bool)
    (allowed : ∀ k', ranker r.submissionID es = some k' → k' = k ∨ (s.call k').kept = none) :
    Agrees ops (es ++ [.saved k r.submissionID])
      ({ s with redis := s.redis.setHash r.submissionID (some ⟨metadata ops r now,expires⟩) }.proceed k (.saved r)) := by
  have written (j : CallRef) : ((s.proceed k (.saved r)).call j).written = (s.call j).written := by
    by_cases same : j = k <;> simp [proceed_call,same,ranked,Call.written]
  refine ⟨?_,?_,?_,?_,?_,?_,?_⟩
  · intro j id none
    have before := (written j).symm.trans none
    by_cases same : j = k
    · simp [same,ranked,Call.written] at before
    · simpa [same] using agrees.silent j id before
  · intro j r' saved
    by_cases same : j = k
    · obtain rfl : r = r' := by simpa [proceed_call,same,Call.kept] using saved
      simp [same]
    · simp only [proceed_call,if_neg same] at saved
      simp [agrees.told j r' saved]
  · intro id none
    exact agrees.unranked id (by simpa using none)
  · intro id j by_
    obtain ⟨r',known,named,value⟩ := agrees.ranked id j (by simpa using by_)
    exact ⟨r',(written j).trans known,named,value⟩
  · intro id nowhere
    by_cases same : r.submissionID = id
    · simp [same] at nowhere
    · simp only [holder_append,if_neg same] at nowhere
      simpa [State.proceed,Redis.setHash,Function.update_apply,Ne.symm same] using agrees.empty id nowhere
  · intro id j origin
    by_cases same : r.submissionID = id
    · subst same
      obtain rfl : k = j := by simpa using origin
      exact ⟨r,now,_,by simp [proceed_call,Call.kept],rfl,by simp [State.proceed,Redis.setHash]; rfl⟩
    · simp only [holder_append,if_neg same] at origin
      obtain ⟨r',now',expires,known,named,value⟩ := agrees.held id j origin
      have other : j ≠ k := by
        rintro rfl
        simp [ranked,Call.kept] at known
      exact ⟨r',now',expires,by simpa [proceed_call,other] using known,named,
        by simpa [State.proceed,Redis.setHash,Function.update_apply,Ne.symm same] using value⟩
  · intro id j by_ saved
    replace by_ : ranker id es = some j := by simpa using by_
    by_cases named : r.submissionID = id
    · subst named
      rcases allowed j by_ with rfl | pending
      · simp
      · by_cases same : j = k
        · simp [same]
        · simp [proceed_call,same,pending] at saved
    · simp only [holder_append,if_neg named]
      apply agrees.settled id j by_
      by_cases same : j = k
      · subst same
        obtain ⟨r',known,rfl,_⟩ := agrees.ranked id j by_
        simp [ranked,Call.written] at known
        exact absurd (congrArg Report.submissionID known) named
      · simpa [proceed_call,same] using saved

theorem date_agrees {hash : Option Hash} (agrees : Agrees ops es s) (saved : s.call k = .saved r)
    (fields : hash.map Hash.fields = (s.redis.hash r.submissionID).map Hash.fields) :
    Agrees ops (es ++ [.quiet]) ({ s with redis := s.redis.setHash r.submissionID hash }.proceed k (.dated r)) := by
  apply agrees.keep rfl
  · intro j
    by_cases same : j = k <;> simp [proceed_call,same,saved,Call.written]
  · intro j
    by_cases same : j = k <;> simp [proceed_call,same,saved,Call.kept]
  · rfl
  · intro id
    by_cases same : id = r.submissionID
    · subst same
      simpa [State.proceed,Redis.setHash] using fields
    · simp [State.proceed,Redis.setHash,same]

theorem lapse_agrees (agrees : Agrees ops es s) (id : Text) :
    Agrees ops (es ++ [.lapsed id]) { s with redis := s.redis.setHash id none } := by
  refine ⟨?_,?_,?_,?_,?_,?_,?_⟩
  · intro k i none
    simpa using agrees.silent k i none
  · intro k r saved
    simp [agrees.told k r saved]
  · intro i none
    exact agrees.unranked i (by simpa using none)
  · intro i k by_
    exact agrees.ranked i k (by simpa using by_)
  · intro i nowhere
    by_cases same : id = i
    · simp [Redis.setHash,same]
    · simp only [holder_append,if_neg same] at nowhere
      simpa [Redis.setHash,Function.update_apply,Ne.symm same] using agrees.empty i nowhere
  · intro i k origin
    by_cases same : id = i
    · simp [same] at origin
    · simp only [holder_append,if_neg same] at origin
      simpa [Redis.setHash,Function.update_apply,Ne.symm same] using agrees.held i k origin
  · intro i k by_ saved
    by_cases same : id = i
    · simp [same]
    · simpa [same] using agrees.settled i k (by simpa using by_) saved

theorem step_agrees (agrees : Agrees ops es s) (orderly : Orderly es s a) (moves : Moves ops s a e s') :
    Agrees ops (es ++ [e]) s' := by
  cases moves with
  | begin k r absent => exact agrees.proceed rfl absent rfl rfl
  | rank k r scored => exact rank_agrees agrees scored
  | rankFails k r err message scored => exact agrees.proceed rfl scored rfl rfl
  | save k r now expires ranked => exact save_agrees agrees ranked now expires (orderly.2 r ranked)
  | saveFails k r now err message ranked => exact absurd orderly.1 (by simp)
  | date k r err hash fields saved => exact date_agrees agrees saved fields
  | publish k r err e idle dated => exact agrees.proceed idle dated rfl rfl
  | lapse id => exact lapse_agrees agrees id

theorem run_agrees (orderly : EachLogged (State.step ops) Orderly actions [] start)
    (result : run (State.step ops) actions start = some (es,s)) : Agrees ops es s := by
  simpa using run_preserves_logged (Agrees ops)
    (fun _ _ a _ _ before orderly step => step_agrees before orderly (step_moves a step))
    actions [] start_agrees orderly result

/-- A step of a call writes to a store only if the log tells of a write of that call. -/
theorem step_silent (agrees : Agrees ops es s) (moves : Moves ops s a e s') (caller : a.caller = some k) :
    s'.redis = s.redis ∨ ∃ id, .ranked k id ∈ es ++ [e] ∨ .saved k id ∈ es ++ [e] := by
  cases moves with
  | rank j r scored =>
    obtain rfl := Option.some.inj caller
    exact .inr ⟨r.submissionID,.inl (by simp)⟩
  | save j r now expires ranked =>
    obtain rfl := Option.some.inj caller
    exact .inr ⟨r.submissionID,.inr (by simp)⟩
  | date j r err hash fields saved =>
    obtain rfl := Option.some.inj caller
    have told := agrees.told j r (by rw [saved]; rfl)
    exact .inr ⟨r.submissionID,.inr (by simp [told])⟩
  | lapse id => simp [Action.caller] at caller
  | begin | rankFails | saveFails | publish => exact .inl rfl

theorem Call.returned_of_written {c : Call F} (idle : c.inProgress = false) (written : c.written = some r) :
    ∃ value, c = .returned r value := by
  cases c with
  | returned r' value =>
    obtain rfl := Option.some.inj written
    exact ⟨value,rfl⟩
  | _ => simp [Call.inProgress,Call.written] at idle written

/-- When no call is in progress, the score of a submission and the hash that describes it come
from one call, unless the hash has lapsed; and a call that failed has written nothing. -/
theorem updateScore_agrees (actions : List (Action F)) (result : run (State.step ops) actions start = some (es,s))
    (orderly : EachLogged (State.step ops) Orderly actions [] start) :
    ((∀ k, (s.call k).inProgress = false) → ∀ id value, s.redis.zset.lookup id = some value →
      ∃ k r, ranker id es = some k ∧ (∃ v, s.call k = .returned r v) ∧ r.submissionID = id ∧ value = score ops r ∧
        (holder id es = some none ∧ s.redis.hash id = none ∨
          holder id es = some (some k) ∧ ∃ now expires, s.redis.hash id = some ⟨metadata ops r now,expires⟩)) ∧
    ∀ k r message, s.call k = .failed r message →
      ∀ front a rest os t o t', actions = front ++ a :: rest → run (State.step ops) front start = some (os,t) →
        t.step ops a = some (o,t') → a.caller = some k → t'.redis = t.redis := by
  have agrees := run_agrees orderly result
  constructor
  · intro idle id value entry
    cases by_ : ranker id es with
    | none => simp [agrees.unranked id by_] at entry
    | some k =>
      obtain ⟨r,written,named,known⟩ := agrees.ranked id k by_
      obtain ⟨v,returned⟩ := Call.returned_of_written (idle k) written
      refine ⟨k,r,rfl,⟨v,returned⟩,named,Option.some.inj (entry.symm.trans known),?_⟩
      rcases agrees.settled id k by_ (by simp [returned,Call.kept]) with held | lapsed
      · obtain ⟨r',now,expires,kept,_,hash⟩ := agrees.held id k held
        obtain rfl : r = r' := by simpa [returned,Call.kept] using kept
        exact .inr ⟨held,now,expires,hash⟩
      · exact .inl ⟨lapsed,agrees.empty id (.inr lapsed)⟩
  · intro k r message failed front a rest os t o t' split before step caller
    subst split
    have early : EachLogged (State.step ops) Orderly front [] start := by
      intro front' b rest' os' u split
      exact orderly front' b (rest' ++ a :: rest) os' u (by simp [split])
    obtain ⟨os',later,m,first,second,rfl⟩ := run_append_inv result
    obtain ⟨rfl,rfl⟩ := outcome_unique before first
    obtain ⟨o',later',t'',step',_,rfl⟩ := run_cons_inv second
    obtain ⟨rfl,rfl⟩ := outcome_unique step step'
    rcases step_silent (run_agrees early before) (step_moves a step) caller with same | ⟨id,told⟩
    · exact same
    · have silent := agrees.silent k id (by rw [failed]; rfl)
      simp only [List.mem_append,List.mem_cons,List.not_mem_nil,or_false,not_or] at told silent
      rcases told with (early | now) | (early | now)
      · exact absurd early silent.1.1
      · exact absurd now silent.1.2.1
      · exact absurd early silent.2.1
      · exact absurd now silent.2.2.1

/-- What a call whose commands all succeed leaves in the store. -/
def recorded (ops : Floats F) (redis : Redis F) (r : Report F) (now : Text) : Redis F :=
  { redis with zset := redis.zset.insert r.submissionID (score ops r) }.setHash r.submissionID
    (some ⟨metadata ops r now,true⟩)

theorem recorded_same (ops : Floats F) (redis : Redis F) (r : Report F) (now : Text) :
    (recorded ops redis r now).zset.lookup r.submissionID = some (score ops r) ∧
      (recorded ops redis r now).hash r.submissionID = some ⟨metadata ops r now,true⟩ := by
  simp [recorded,Redis.setHash]

theorem recorded_other (ops : Floats F) (redis : Redis F) (now : Text) {r : Report F} {id : Text}
    (other : id ≠ r.submissionID) :
    (recorded ops redis r now).zset.lookup id = redis.zset.lookup id ∧
      (recorded ops redis r now).hash id = redis.hash id := by
  simp [recorded,Redis.setHash,other,AList.lookup_insert_ne other]

def successful (k : CallRef) (r : Report F) (now : Text) : List (Action F) :=
  [.updateScore k r,.zAdd k none,.hSet k now none,.expire k none,.publish k none]

theorem run_successful (absent : s.call k = .absent) (r : Report F) (now : Text) :
    ∃ es s', run (State.step ops) (successful k r now) s = some (es,s') ∧ s'.redis = recorded ops s.redis r now ∧
      s'.call k = .returned r (score ops r) := by
  simp [successful,run,State.step,absent,zAdd,hSet,expire,publish,State.proceed,Redis.setHash,recorded]

/-- Whole numbers in place of floats. -/
def wholes : Floats Nat where
  zero := 0
  hundred := 100
  thousand := 1000
  mul := (· * ·)
  div := (· / ·)
  positive n := 0 < n
  fixed := Nat.toDigits 10
  marshal n :=
    if valid : number (Nat.toDigits 10 n) = some (Nat.toDigits 10 n,[]) then some ⟨Nat.toDigits 10 n,valid⟩ else none

def slowReport : Report Nat := ⟨['s'],['c'],7,1000,100⟩

def fastReport : Report Nat := ⟨['s'],['c'],7,10,100⟩

/-- The second call starts while the first is between its writes, and a third one fails. -/
def orderlyCalls : List (Action Nat) :=
  [.updateScore 1 slowReport,.zAdd 1 none,.updateScore 2 fastReport,.updateScore 3 slowReport,.zAdd 3 (some ['e']),
    .hSet 1 ['t'] none,.zAdd 2 none,.expire 1 none,.hSet 2 ['u'] none,.publish 1 none,.expire 2 none,.publish 2 none]

theorem orderlyCalls_agree : ∃ es s, run (State.step wholes) orderlyCalls start = some (es,s) ∧
    s.redis.zset.lookup ['s'] = some 700 ∧ s.call 3 = .failed slowReport "failed to add ZSET entry: e".toList ∧
    (∀ k, (s.call k).inProgress = false) ∧
    ((∀ k, (s.call k).inProgress = false) → ∀ id value, s.redis.zset.lookup id = some value →
      ∃ k r, ranker id es = some k ∧ (∃ v, s.call k = .returned r v) ∧ r.submissionID = id ∧ value = score wholes r ∧
        (holder id es = some none ∧ s.redis.hash id = none ∨
          holder id es = some (some k) ∧ ∃ now expires, s.redis.hash id = some ⟨metadata wholes r now,expires⟩)) ∧
    ∀ k r message, s.call k = .failed r message →
      ∀ front a rest os t o t', orderlyCalls = front ++ a :: rest → run (State.step wholes) front start = some (os,t) →
        t.step wholes a = some (o,t') → a.caller = some k → t'.redis = t.redis := by
  have orderly : EachLogged (State.step wholes) Orderly orderlyCalls [] start := by
    refine (eachLogged_cons rfl).mpr ⟨trivial,(eachLogged_cons rfl).mpr ⟨trivial,(eachLogged_cons rfl).mpr ⟨trivial,?_⟩⟩⟩
    refine (eachLogged_cons rfl).mpr ⟨trivial,(eachLogged_cons rfl).mpr ⟨trivial,(eachLogged_cons rfl).mpr ⟨⟨rfl,?_⟩,?_⟩⟩⟩
    · intro r ranked k first
      obtain rfl := Call.ranked.inj ranked
      exact .inl (Option.some.inj first).symm
    refine (eachLogged_cons rfl).mpr ⟨trivial,(eachLogged_cons rfl).mpr ⟨trivial,(eachLogged_cons rfl).mpr ⟨⟨rfl,?_⟩,?_⟩⟩⟩
    · intro r ranked k second
      obtain rfl := Call.ranked.inj ranked
      exact .inl (Option.some.inj second).symm
    refine (eachLogged_cons rfl).mpr ⟨trivial,(eachLogged_cons rfl).mpr ⟨trivial,(eachLogged_cons rfl).mpr ⟨trivial,?_⟩⟩⟩
    exact eachLogged_nil
  refine ⟨_,_,rfl,by decide,rfl,?_,updateScore_agrees orderlyCalls rfl orderly⟩
  intro k
  match k with
  | 0 | 1 | 2 | 3 => rfl
  | k + 4 => rfl

/-- The first call's HSet comes last. -/
def crossedCalls : List (Action Nat) :=
  [.updateScore 1 slowReport,.updateScore 2 fastReport,.zAdd 1 none,.zAdd 2 none,.hSet 2 ['u'] none,.hSet 1 ['t'] none,
    .expire 1 none,.publish 1 none,.expire 2 none,.publish 2 none]

/-- The score is left at that of the second call under the metadata of the first, and a call that
failed in between has left its score behind. -/
theorem crossedCalls_disagree :
    (∃ es s, run (State.step wholes) crossedCalls start = some (es,s) ∧ (∀ k, (s.call k).inProgress = false) ∧
      s.redis.zset.lookup ['s'] = some (score wholes fastReport) ∧
      s.redis.hash ['s'] = some ⟨metadata wholes slowReport ['t'],true⟩ ∧
      ∀ now, metadata wholes slowReport ['t'] ≠ metadata wholes fastReport now) ∧
    ∃ es s, run (State.step wholes) [.updateScore 1 slowReport,.zAdd 1 none,.hSet 1 ['t'] (some ['e'])] start =
      some (es,s) ∧ s.call 1 = .failed slowReport "failed to save metadata: e".toList ∧
      s.redis.zset.lookup ['s'] = some (score wholes slowReport) ∧ s.redis.hash ['s'] = none := by
  refine ⟨⟨_,_,rfl,?_,by decide,by decide,?_⟩,⟨_,_,rfl,rfl,by decide,by decide⟩⟩
  · intro k
    match k with
    | 0 | 1 | 2 => rfl
    | k + 3 => rfl
  · intro now same
    have scores : wholes.fixed (score wholes slowReport) = wholes.fixed (score wholes fastReport) :=
      congrArg Metadata.score same
    exact absurd scores (by decide)

end TradingPlatform.Leaderboard.Ranking
