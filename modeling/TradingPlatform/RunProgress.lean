import TradingPlatform.RunDuration

/-! Benchmark runs come to their end: from wherever failed calls have left a run, nine steps of its
own `Reconcile` at most bring it to Succeeded, whatever the other runs do, and until then every
`Reconcile` asks to be repeated. -/
namespace TradingPlatform.Controller

open Json Objects Runs

variable {ι : Type} [DecidableEq ι] {lib : TimeLib} {spec : ι → Option Spec} {sp : Spec} {es : List (Event ι)}
  {e : Event ι} {c c' : Cluster ι} {r : ι} {a : Action ι} {history : List (Action ι × Event ι)}

/-- The steps that are left of a run. -/
def stepsLeft (state : RunState) : Stage → Nat
  | .idle =>
    match state with
    | .empty => 9
    | .running => 3
    | _ => 0
  | .space => 8
  | .quota => 7
  | .policy => 6
  | .pod => 5
  | .running => 4
  | .delete _ => 2
  | .succeeded => 1

def Cluster.left (c : Cluster ι) (r : ι) : Nat := stepsLeft (c.status r).state (c.stage r)

/-- A step of the run's own `Reconcile`, unless that returns before its first call. -/
def works (r : ι) : Action ι × Event ι → Bool
  | (.reconcile _ _ _,.returned _ _) => false
  | (.reconcile q _ _,_) => q = r
  | (.missed _ _,_) => false
  | (.call q _ _,_) => q = r

theorem step_call_now (lib : TimeLib) (known : spec r = some sp) (busy : c.stage r ≠ .idle) {now : Int}
    (time : c.clock ≤ now) :
    step lib spec c (.call r now none) = call lib sp { c with clock := now } r now := by
  simp [step,known,busy,time]

/-- A Create of a run's own `Reconcile` brings it to its next call. -/
theorem created_left {answer : Answer × Store Text Key Manifest} {next : Stage} (found : answer.1 ≠ .notFound)
    (result : some (created c r sp answer next) = some (e,c')) :
    c'.left r = stepsLeft (c.status r).state next := by
  rw [created_eq found] at result
  obtain ⟨rfl,rfl⟩ := Prod.mk.inj (Option.some.inj result)
  simp [Cluster.left,Cluster.enter]

theorem call_left (holds : Holds sp c.store k) (fits : Fits lib sp es r (c.stage r) (c.status r).state k)
    (result : call lib sp c r now = some (e,c')) : c'.left r + 1 = c.left r := by
  have there (i : Nat) {key : Key} {o : Manifest} (item : (contents sp)[i]? = some (key,o)) (ready : i + 1 ≤ k) :
      (c.store.create (runNamespace sp) key o).1 ≠ .notFound := (holds.create (contents_distinct sp) item ready).1
  cases stage : c.stage r with
  | idle => simp [call,stage] at result
  | space =>
    simp only [call,stage] at result
    rw [created_left (createSpace_found _ _ _) result]
    simp [Cluster.left,stage,stepsLeft]
  | quota =>
    rw [stage] at fits
    simp only [call,stage] at result
    rw [created_left (there 0 rfl fits.2.1) result]
    simp [Cluster.left,stage,stepsLeft]
  | policy =>
    rw [stage] at fits
    simp only [call,stage] at result
    rw [created_left (there 1 rfl fits.2.1) result]
    simp [Cluster.left,stage,stepsLeft]
  | pod =>
    rw [stage] at fits
    simp only [call,stage] at result
    rw [created_left (there 2 rfl fits.2.1) result]
    simp [Cluster.left,stage,stepsLeft]
  | delete t =>
    rw [stage] at fits
    simp only [call,stage] at result
    obtain ⟨rfl,rfl⟩ := Prod.mk.inj (Option.some.inj result)
    simp [Cluster.left,Cluster.enter,stage,stepsLeft]
  | running | succeeded =>
    simp only [call,stage] at result
    obtain ⟨rfl,rfl⟩ := Prod.mk.inj (Option.some.inj result)
    simp [Cluster.left,Cluster.enter,Cluster.setStatus,stage,stepsLeft]

/-- A `Reconcile` that finds the run makes its first call, or returns with nothing changed but the
clock. -/
theorem reconcile_left (result : reconcile lib spec c r now later = some (e,c')) :
    works r (.reconcile r now later,e) = true ∧ c'.left r + 1 = c.left r ∨
    works r (.reconcile r now later,e) = false ∧ c'.left r = c.left r ∧ ∃ answer, e = .returned r answer := by
  unfold reconcile at result
  split at result
  · rename_i ready
    split at result
    · obtain ⟨rfl,rfl⟩ := Prod.mk.inj (Option.some.inj result)
      exact .inr ⟨rfl,rfl,_,rfl⟩
    · dsimp only at result
      split at result
      · rename_i empty
        obtain ⟨rfl,rfl⟩ := Prod.mk.inj (Option.some.inj result)
        exact .inl (by simp [works,Cluster.left,Cluster.enter,ready.1,empty,stepsLeft])
      · rename_i running
        split at result
        · obtain ⟨rfl,rfl⟩ := Prod.mk.inj (Option.some.inj result)
          exact .inl (by simp [works,Cluster.left,Cluster.enter,ready.1,running,stepsLeft])
        · obtain ⟨rfl,rfl⟩ := Prod.mk.inj (Option.some.inj result)
          exact .inr ⟨rfl,rfl,_,rfl⟩
      · obtain ⟨rfl,rfl⟩ := Prod.mk.inj (Option.some.inj result)
        exact .inr ⟨rfl,rfl,_,rfl⟩
  · simp at result

omit [DecidableEq ι] in
theorem Apart.left (apart : Apart spec q c c') (other : r ≠ q) : c'.left r = c.left r := by
  obtain ⟨stage,status⟩ := apart.runs r other
  rw [Cluster.left,Cluster.left,stage,status]

theorem works_run {x : Action ι × Event ι} (works : works r x = true) : x.1.run = r := by
  unfold Controller.works at works
  split at works <;> simp_all [Action.run]

/-- A step of the run's own takes one off, every other step takes none. -/
theorem step_left (upheld : Upheld lib spec es c) (known : spec r = some sp)
    (unfailing : ∀ now err, a ≠ .call r now (some err))
    (moves : Moves lib spec c a e c') : c'.left r + (if works r (a,e) then 1 else 0) = c.left r := by
  by_cases own : r = a.run
  · obtain ⟨k,holds,fits⟩ := upheld.known r sp known
    cases moves with
    | reconcile q now later o t result =>
      obtain rfl : r = q := own
      rcases reconcile_left result with ⟨working,less⟩ | ⟨waiting,same,_⟩
      · simpa [working] using less
      · simpa [waiting] using same
    | missed q err o => simp [works]
    | call q now sp' o t known' result =>
      obtain rfl : r = q := own
      obtain rfl := Option.some.inj (known'.symm.trans known)
      have less : c'.left r + 1 = c.left r := call_left (c := { c with clock := now }) holds fits result
      simpa [works] using less
    | fails q now err o _ =>
      obtain rfl : r = q := own
      exact absurd rfl (unfailing now err)
  · have idle : works r (a,e) = false := by
      cases working : works r (a,e) with
      | false => rfl
      | true => exact absurd (works_run working).symm own
    simpa [idle] using (step_apart moves).left own

theorem run_left (distinct : Distinct spec) (known : spec r = some sp) (upheld : Upheld lib spec es c)
    (rest : List (Action ι)) (unfailing : ∀ now err, .call r now (some err) ∉ rest) {later : List (Action ι × Event ι)}
    {t : Cluster ι} (result : run (noted lib spec) rest c = some (later,t)) :
    t.left r + later.countP (works r) = c.left r ∧ Upheld lib spec (es ++ later.map Prod.snd) t := by
  induction rest generalizing es c later with
  | nil =>
    obtain ⟨rfl,rfl⟩ := Prod.mk.inj (Option.some.inj result)
    simpa using upheld
  | cons a rest ih =>
    obtain ⟨x,later,c',first,after,rfl⟩ := run_cons_inv result
    obtain ⟨e,rfl,step⟩ := noted_eq first
    have moves := step_moves a step
    obtain ⟨total,final⟩ := ih (step_upheld distinct upheld moves)
      (fun now err member => unfailing now err (by simp [member])) after
    have one := step_left upheld known (fun now err same => unfailing now err (by simp [same])) moves
    refine ⟨?_,by simpa using final⟩
    rw [List.countP_cons]
    omega

omit [DecidableEq ι] in
/-- Nothing is left of a run exactly if it is Succeeded. -/
theorem Fits.left_eq_zero (fits : Fits lib sp es r (c.stage r) (c.status r).state k) :
    c.left r = 0 ↔ (c.status r).state = .succeeded := by
  unfold Cluster.left
  cases stage : c.stage r with
  | idle =>
    rw [stage] at fits
    rcases fits with ⟨state,_⟩ | ⟨state,_⟩ | ⟨state,_⟩ <;> simp [state,stepsLeft]
  | _ =>
    rw [stage] at fits
    simp [fits.1,stepsLeft]

omit [DecidableEq ι] in
theorem Cluster.left_le (c : Cluster ι) (r : ι) : c.left r ≤ 9 := by
  unfold Cluster.left stepsLeft
  split
  · split <;> omega
  all_goals omega

theorem noted_of_step (result : step lib spec c a = some (e,c')) : noted lib spec c a = some ((a,e),c') := by
  simp [noted,result]

theorem call_possible (busy : c.stage r ≠ .idle) : (call lib sp c r now).isSome := by
  cases stage : c.stage r with
  | idle => exact absurd stage busy
  | _ => simp [call,stage]

/-- From some time on the run can get on. -/
def Ready (lib : TimeLib) (spec : ι → Option Spec) (r : ι) (c : Cluster ι) : Prop :=
  ∃ due, ∀ now, due ≤ now → ∃ a x c', noted lib spec c a = some (x,c') ∧ works r x = true ∧ c'.clock = now

/-- The text of the start time can be read back, so the duration is over at some time. -/
theorem unfinished_ready (law : WholeSeconds lib) (known : spec r = some sp)
    (timely : Timely lib sp begun (c.status r) c.clock (c.stage r)) (unfinished : (c.status r).state ≠ .succeeded) :
    Ready lib spec r c := by
  by_cases idle : c.stage r = .idle
  · rw [idle] at timely
    rcases timely with ⟨empty,_⟩ | ⟨t₀,running,_,startedAt,_⟩ | ⟨succeeded,_⟩
    · refine ⟨c.clock,fun now time => ?_⟩
      have goes : step lib spec c (.reconcile r now now) = some (.working r,{ c with clock := now }.enter r .space) := by
        simp [step,reconcile,idle,known,empty,time]
      exact ⟨_,_,_,noted_of_step goes,by simp [works],rfl⟩
    · refine ⟨max c.clock (t₀ / second * second + duration lib sp),fun now time => ?_⟩
      have past : c.clock ≤ now := by omega
      have elapsed : duration lib sp ≤ now - t₀ / second * second := by omega
      have goes : step lib spec c (.reconcile r now now) =
          some (.elapsed r,{ c with clock := now }.enter r (.delete (now - t₀ / second * second))) := by
        simp [step,reconcile,idle,known,running,startedAt,law t₀,past,elapsed]
      exact ⟨_,_,_,noted_of_step goes,by simp [works],rfl⟩
    · exact absurd succeeded unfinished
  · refine ⟨c.clock,fun now time => ?_⟩
    obtain ⟨⟨e,c'⟩,called⟩ := Option.isSome_iff_exists.mp (call_possible (c := { c with clock := now }) idle)
    have goes := (step_call_now lib known idle time).trans called
    exact ⟨_,_,_,noted_of_step goes,by simp [works],(step_call goes).2⟩

theorem run_noted_upheld {store : Store Text Key Manifest} {clock : Int} (distinct : Distinct spec)
    (clear : Clear spec store)
    (actions : List (Action ι)) (result : run (noted lib spec) actions (start store clock) = some (history,c)) :
    Upheld lib spec (history.map Prod.snd) c := by
  have begins : Upheld lib spec [] (start store clock) := run_upheld distinct clear [] rfl
  simpa using run_preserves (fun history c => Upheld lib spec (history.map Prod.snd) c)
    (fun history c a x c' upheld moved => by
    obtain ⟨e,rfl,step⟩ := noted_eq moved
    simpa using step_upheld distinct upheld (step_moves a step)) actions [] begins result

/-- Wherever failed calls have left a run: it can get on from some time on unless it is Succeeded,
and once it has made the steps that are left of it, nine at most, without another failure, it is
Succeeded and its namespace is gone, whatever the other runs have done in between. -/
theorem run_completes {store : Store Text Key Manifest} {clock : Int} {front : List (Action ι)} (distinct : Distinct spec)
    (clear : Clear spec store) (law : WholeSeconds lib) (known : spec r = some sp)
    (reached : run (noted lib spec) front (start store clock) = some (history,c)) :
    ((c.status r).state ≠ .succeeded → Ready lib spec r c) ∧ c.left r ≤ 9 ∧
    ∀ rest later t, (∀ now err, .call r now (some err) ∉ rest) → run (noted lib spec) rest c = some (later,t) →
      t.left r + later.countP (works r) = c.left r ∧
      (later.countP (works r) = c.left r ↔ (t.status r).state = .succeeded) ∧
      (later.countP (works r) = c.left r →
        t.store.space (runNamespace sp) = none ∧ ∀ key, t.store.object (runNamespace sp) key = none) := by
  have upheld := run_noted_upheld distinct clear front reached
  refine ⟨unfinished_ready law known (run_kept law known front reached).timely,c.left_le r,?_⟩
  intro rest later t unfailing result
  obtain ⟨total,final⟩ := run_left distinct known upheld rest unfailing result
  obtain ⟨k,holds,fits⟩ := final.known r sp known
  have finished : later.countP (works r) = c.left r ↔ (t.status r).state = .succeeded := by
    rw [← fits.left_eq_zero]
    omega
  refine ⟨total,finished,fun worked => ?_⟩
  rcases fits.state with ⟨state,_⟩ | ⟨state,_⟩ | ⟨_,rfl⟩
  · cases state.symm.trans (finished.mp worked)
  · cases state.symm.trans (finished.mp worked)
  · exact holds.cleared

/-- The first run is to be deleted for the second time; the second has its quota refused. -/
def repeatedEnd : List (Action Bool) :=
  [.reconcile false (6 * second) (6 * second),.call true (6 * second) (some ['e']),.call false (6 * second) none,
    .call false (7 * second) none]

theorem failingCalls_recover : ∃ history c later t,
    run (noted tallied (twoRuns ['s'] ['t'])) failingCalls (start emptyStore 0) = some (history,c) ∧
    (c.status false).state = .running ∧ Ready tallied (twoRuns ['s'] ['t']) false c ∧
    run (noted tallied (twoRuns ['s'] ['t'])) repeatedEnd c = some (later,t) ∧ (t.status false).state = .succeeded := by
  obtain ⟨history,c,later,t,reached,running,result,worked⟩ : ∃ history c later t,
      run (noted tallied (twoRuns ['s'] ['t'])) failingCalls (start emptyStore 0) = some (history,c) ∧
      (c.status false).state = .running ∧ run (noted tallied (twoRuns ['s'] ['t'])) repeatedEnd c = some (later,t) ∧
      later.countP (works false) = c.left false := ⟨_,_,_,_,rfl,rfl,rfl,rfl⟩
  obtain ⟨ready,_,completes⟩ := run_completes (twoRuns_distinct (by decide)) (emptyStore_clear _) tallied_wholeSeconds
    (show twoRuns ['s'] ['t'] false = some ⟨['c'],['s'],['x'],"5s".toList⟩ from rfl) reached
  have unfailing : ∀ now err, .call false now (some err) ∉ repeatedEnd := by simp [repeatedEnd]
  exact ⟨history,c,later,t,reached,running,ready (by simp [running]),result,
    (completes repeatedEnd later t unfailing result).2.1.mp worked⟩

/-- What an unfinished run returns: an error, or the time after which to repeat the call, which
must be positive to be heeded. -/
def AsksAgain : Result → Prop
  | .done => False
  | .requeueAfter d => 0 < d
  | .error _ => True

/-- The answer of a `Reconcile` that has found the run. -/
def answerOf (r : ι) : Action ι × Event ι → Option Result
  | (.missed _ _,_) => none
  | (a,.returned _ answer) => if a.run = r then some answer else none
  | _ => none

theorem reconcile_answers (upheld : Upheld lib spec es c) (known : spec r = some sp)
    (result : reconcile lib spec c r now later = some (.returned q answer,c')) :
    AsksAgain answer ∨ (c'.status r).state = .succeeded := by
  unfold reconcile at result
  split at result
  · simp only [known] at result
    split at result
    · simp at result
    · split at result
      · simp at result
      · rename_i early
        simp only [Option.some.injEq,Prod.mk.injEq,Event.returned.injEq] at result
        obtain ⟨⟨_,rfl⟩,_⟩ := result
        exact .inl (Int.sub_pos_of_lt (Int.not_le.mp early))
    · rename_i notEmpty notRunning
      simp only [Option.some.injEq,Prod.mk.injEq] at result
      obtain ⟨_,rfl⟩ := result
      obtain ⟨k,_,fits⟩ := upheld.known r sp known
      rcases fits.state with ⟨state,_⟩ | ⟨state,_⟩ | ⟨state,_⟩
      · exact absurd state notEmpty
      · exact absurd state notRunning
      · exact .inr state
  · simp at result

theorem call_answers (result : call lib sp c r now = some (.returned q answer,c')) :
    AsksAgain answer ∨ (c'.status r).state = .succeeded := by
  have creates {reply : Answer × Store Text Key Manifest} {next : Stage}
      (result : some (created c r sp reply next) = some (.returned q answer,c')) : AsksAgain answer := by
    rcases created_cases c r sp reply next with ⟨err,same⟩ | same
    · simp only [same,Option.some.injEq,Prod.mk.injEq,Event.returned.injEq] at result
      obtain ⟨⟨_,rfl⟩,_⟩ := result
      trivial
    · simp [same] at result
  cases stage : c.stage r with
  | idle => simp [call,stage] at result
  | space | quota | policy | pod =>
    simp only [call,stage] at result
    exact .inl (creates result)
  | delete t => simp [call,stage] at result
  | running =>
    simp only [call,stage,Option.some.injEq,Prod.mk.injEq,Event.returned.injEq] at result
    obtain ⟨⟨_,rfl⟩,_⟩ := result
    exact .inl (show (0 : Int) < 5 * second by decide)
  | succeeded =>
    simp only [call,stage,Option.some.injEq,Prod.mk.injEq] at result
    obtain ⟨_,rfl⟩ := result
    exact .inr (by simp [Cluster.enter,Cluster.setStatus])

theorem fails_answers {err : Text}
    (result : step lib spec c (.call r now (some err)) = some (.returned q answer,c')) : AsksAgain answer := by
  simp only [step] at result
  split at result
  · simp at result
  · split at result
    · simp only [Option.some.injEq,Prod.mk.injEq,Event.returned.injEq] at result
      obtain ⟨⟨_,rfl⟩,_⟩ := result
      trivial
    · simp at result

theorem answerOf_returned {x : Action ι × Event ι} (returned : x.2 = .returned q reply)
    (answered : answerOf r x = some answer) :
    x.1.run = r ∧ reply = answer := by
  unfold answerOf at answered
  split at answered
  · simp at answered
  · split at answered
    · rename_i own
      exact ⟨own,(Event.returned.inj returned).2.symm.trans (Option.some.inj answered)⟩
    · simp at answered
  · simp at answered

theorem step_answers (upheld : Upheld lib spec es c) (known : spec r = some sp) (result : step lib spec c a = some (e,c'))
    (answered : answerOf r (a,e) = some answer) : AsksAgain answer ∨ (c'.status r).state = .succeeded := by
  cases e with
  | returned q reply =>
    cases a with
    | missed p err => simp [answerOf] at answered
    | reconcile p now later =>
      obtain ⟨rfl,rfl⟩ := answerOf_returned rfl answered
      exact reconcile_answers upheld known result
    | call p now err =>
      obtain ⟨rfl,rfl⟩ := answerOf_returned rfl answered
      cases err with
      | some err => exact .inl (fails_answers result)
      | none =>
        cases step_moves _ result with
        | call _ _ _ _ _ _ called => exact call_answers called
  | _ => cases a <;> simp [answerOf] at answered

theorem Proceeds.succeeded (proceeds : Proceeds before after) (last : before = .succeeded) : after = .succeeded := by
  cases proceeds with
  | stays => exact last
  | starts | ends => cases last

/-- As long as a run is not Succeeded, every `Reconcile` that has found it and returned has asked
to be repeated: no failure and no interleaving makes the controller forget a run. -/
theorem unfinished_asks_again {store : Store Text Key Manifest} {clock : Int} {actions : List (Action ι)}
    (distinct : Distinct spec) (clear : Clear spec store) (known : spec r = some sp)
    (result : run (noted lib spec) actions (start store clock) = some (history,c))
    (unfinished : (c.status r).state ≠ .succeeded) :
    ∀ x ∈ history, ∀ answer, answerOf r x = some answer → AsksAgain answer := by
  let I (history : List (Action ι × Event ι)) (c : Cluster ι) : Prop :=
    Upheld lib spec (history.map Prod.snd) c ∧
      ((c.status r).state ≠ .succeeded → ∀ x ∈ history, ∀ answer, answerOf r x = some answer → AsksAgain answer)
  have begins : I [] (start store clock) := ⟨run_upheld distinct clear [] rfl,fun _ => by simp⟩
  suffices all : I ([] ++ history) c from all.2 unfinished
  refine run_preserves I (fun history c a x c' before moved => ?_) actions [] begins result
  obtain ⟨upheld,asked⟩ := before
  obtain ⟨e,rfl,step⟩ := noted_eq moved
  have moves := step_moves a step
  refine ⟨by simpa using step_upheld distinct upheld moves,fun unfinished => ?_⟩
  -- Succeeded is never left, so the run was not Succeeded before either
  have earlier : (c.status r).state ≠ .succeeded := fun succeeded =>
    unfinished ((step_proceeds upheld moves r).succeeded succeeded)
  intro x member answer answered
  rcases List.mem_append.mp member with old | new
  · exact asked earlier x old answer answered
  · obtain rfl := List.mem_singleton.mp new
    exact (step_answers upheld known step answered).resolve_right unfinished

theorem failingCalls_ask_again : ∃ history c,
    run (noted tallied (twoRuns ['s'] ['t'])) failingCalls (start emptyStore 0) = some (history,c) ∧
    history.filterMap (answerOf false) = [.error ['e'],.requeueAfter (5 * second),.error ['e']] ∧
    ∀ x ∈ history, ∀ answer, answerOf false x = some answer → AsksAgain answer := by
  obtain ⟨history,c,reached,running,answers⟩ : ∃ history c,
      run (noted tallied (twoRuns ['s'] ['t'])) failingCalls (start emptyStore 0) = some (history,c) ∧
      (c.status false).state = .running ∧
      history.filterMap (answerOf false) = [.error ['e'],.requeueAfter (5 * second),.error ['e']] := ⟨_,_,rfl,rfl,rfl⟩
  exact ⟨history,c,reached,answers,unfinished_asks_again (twoRuns_distinct (by decide)) (emptyStore_clear _)
    (show twoRuns ['s'] ['t'] false = some ⟨['c'],['s'],['x'],"5s".toList⟩ from rfl) reached (by simp [running])⟩

end TradingPlatform.Controller
