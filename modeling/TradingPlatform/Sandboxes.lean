import TradingPlatform.Controller

/-! The sandboxes of benchmark runs: at every cut of every `Reconcile` the objects of a run's
namespace are the first of those it creates, in their order, so that the contestant's pod never
comes before its limits; runs with different submissions do not meet. -/
namespace TradingPlatform.Controller

open Json Objects Runs

variable {ι : Type} {lib : TimeLib} {spec : ι → Option Spec} {sp : Spec} {es : List (Event ι)} {e : Event ι}
  {c c' : Cluster ι} {r : ι} {k : Nat}

/-- The namespace was deleted by a `Reconcile` that saw the duration elapsed. -/
def Torn (lib : TimeLib) (sp : Spec) (es : List (Event ι)) (r : ι) : Prop :=
  .elapsed r ∈ es ∧ ∃ t, duration lib sp ≤ t ∧ .tornDown r t ∈ es

/-- How far the objects of a run have come, by its next call and its status. -/
def Fits (lib : TimeLib) (sp : Spec) (es : List (Event ι)) (r : ι) (stage : Stage) (state : RunState) (k : Nat) : Prop :=
  match stage with
  | .idle => state = .empty ∧ k ≤ 4 ∨ state = .running ∧ (k = 4 ∨ k = 0 ∧ Torn lib sp es r) ∨ state = .succeeded ∧ k = 0
  | .space => state = .empty ∧ k ≤ 4
  | .quota => state = .empty ∧ 1 ≤ k ∧ k ≤ 4
  | .policy => state = .empty ∧ 2 ≤ k ∧ k ≤ 4
  | .pod => state = .empty ∧ 3 ≤ k ∧ k ≤ 4
  | .running => state = .empty ∧ k = 4
  | .delete t => state = .running ∧ duration lib sp ≤ t ∧ .elapsed r ∈ es ∧ (k = 4 ∨ k = 0 ∧ Torn lib sp es r)
  | .succeeded => state = .running ∧ k = 0 ∧ Torn lib sp es r

/-- A run's namespace with what it holds. -/
abbrev Holds (sp : Spec) (store : Store Text Key Manifest) (k : Nat) : Prop :=
  Staged store (runNamespace sp) (namespaceOf sp) (contents sp) k

structure Upheld (lib : TimeLib) (spec : ι → Option Spec) (es : List (Event ι)) (c : Cluster ι) : Prop where
  known : ∀ r sp, spec r = some sp → ∃ k, Holds sp c.store k ∧ Fits lib sp es r (c.stage r) (c.status r).state k
  unknown : ∀ r, spec r = none → c.stage r = .idle ∧ (c.status r).state = .empty

theorem Torn.later (torn : Torn lib sp es r) (e : Event ι) : Torn lib sp (es ++ [e]) r := by
  obtain ⟨seen,t,enough,deleted⟩ := torn
  exact ⟨by simp [seen],t,enough,by simp [deleted]⟩

theorem Fits.later {stage : Stage} {state : RunState} (fits : Fits lib sp es r stage state k) (e : Event ι) :
    Fits lib sp (es ++ [e]) r stage state k := by
  cases stage with
  | idle => exact fits.imp id (Or.imp (And.imp id (Or.imp id (And.imp id fun torn => torn.later e))) id)
  | delete t =>
    obtain ⟨running,enough,seen,built⟩ := fits
    exact ⟨running,enough,by simp [seen],built.imp id (And.imp id fun torn => torn.later e)⟩
  | succeeded => exact ⟨fits.1,fits.2.1,fits.2.2.later e⟩
  | _ => exact fits

variable [DecidableEq ι]

theorem created_eq {answer : Answer × Store Text Key Manifest} (found : answer.1 ≠ .notFound) (next : Stage) :
    created c r sp answer next = (.working r,{ c with store := answer.2 }.enter r next) := by
  obtain ⟨answer,store⟩ := answer
  cases answer with
  | notFound => exact absurd rfl found
  | _ => rfl

theorem createSpace_found (s : Store Text Key Manifest) (n : Text) (o : Manifest) :
    (s.createSpace n o).1 ≠ .notFound := by
  unfold Store.createSpace
  split <;> simp

/-- A Create in a namespace that has what comes before the object. -/
theorem created_own {key : Key} {o : Manifest} {next : Stage} (holds : Holds sp c.store k)
    (item : (contents sp)[i]? = some (key,o))
    (ready : i + 1 ≤ k) (result : some (created c r sp (c.store.create (runNamespace sp) key o) next) = some (e,c')) :
    Holds sp c'.store (max k (i + 2)) ∧ c'.stage r = next ∧ c'.status = c.status := by
  obtain ⟨found,holds'⟩ := holds.create (contents_distinct sp) item ready
  rw [created_eq found] at result
  obtain ⟨rfl,rfl⟩ := Prod.mk.inj (Option.some.inj result)
  exact ⟨holds',by simp [Cluster.enter],rfl⟩

/-- A call of a run's own `Reconcile`. -/
theorem call_own (holds : Holds sp c.store k) (fits : Fits lib sp es r (c.stage r) (c.status r).state k)
    (result : call lib sp c r now = some (e,c')) :
    ∃ k', Holds sp c'.store k' ∧ Fits lib sp (es ++ [e]) r (c'.stage r) (c'.status r).state k' := by
  cases stage : c.stage r with
  | idle => simp [call,stage] at result
  | space =>
    obtain ⟨state,bound⟩ : _ ∧ k ≤ 4 := by rwa [stage] at fits
    have found := createSpace_found c.store (runNamespace sp) (namespaceOf sp)
    simp only [call,stage,created_eq found] at result
    obtain ⟨rfl,rfl⟩ := Prod.mk.inj (Option.some.inj result)
    refine ⟨max k 1,holds.createSpace,?_⟩
    simp only [Cluster.enter,Function.update_self]
    exact ⟨state,by omega,by omega⟩
  | quota =>
    obtain ⟨state,ready,bound⟩ : _ ∧ 1 ≤ k ∧ k ≤ 4 := by rwa [stage] at fits
    simp only [call,stage] at result
    obtain ⟨holds',next,status⟩ := created_own (i := 0) holds rfl ready result
    refine ⟨_,holds',?_⟩
    rw [next,status]
    exact ⟨state,by omega,by omega⟩
  | policy =>
    obtain ⟨state,ready,bound⟩ : _ ∧ 2 ≤ k ∧ k ≤ 4 := by rwa [stage] at fits
    simp only [call,stage] at result
    obtain ⟨holds',next,status⟩ := created_own (i := 1) holds rfl ready result
    refine ⟨_,holds',?_⟩
    rw [next,status]
    exact ⟨state,by omega,by omega⟩
  | pod =>
    obtain ⟨state,ready,bound⟩ : _ ∧ 3 ≤ k ∧ k ≤ 4 := by rwa [stage] at fits
    simp only [call,stage] at result
    obtain ⟨holds',next,status⟩ := created_own (i := 2) holds rfl ready result
    refine ⟨_,holds',?_⟩
    rw [next,status]
    exact ⟨state,by omega⟩
  | running =>
    obtain ⟨state,rfl⟩ : _ ∧ k = 4 := by rwa [stage] at fits
    simp only [call,stage] at result
    obtain ⟨rfl,rfl⟩ := Prod.mk.inj (Option.some.inj result)
    refine ⟨4,holds,?_⟩
    simp only [Cluster.enter,Cluster.setStatus,Function.update_self]
    exact .inr (.inl ⟨rfl,.inl rfl⟩)
  | delete t =>
    rw [stage] at fits
    obtain ⟨state,enough,seen,_⟩ := fits
    simp only [call,stage] at result
    obtain ⟨rfl,rfl⟩ := Prod.mk.inj (Option.some.inj result)
    refine ⟨0,holds.deleteSpace,?_⟩
    simp only [Cluster.enter,Function.update_self]
    exact ⟨state,rfl,by simp [seen],t,enough,by simp⟩
  | succeeded =>
    rw [stage] at fits
    obtain ⟨state,rfl,_⟩ := fits
    simp only [call,stage] at result
    obtain ⟨rfl,rfl⟩ := Prod.mk.inj (Option.some.inj result)
    refine ⟨0,holds,?_⟩
    simp only [Cluster.enter,Cluster.setStatus,Function.update_self]
    exact .inr (.inr ⟨rfl,rfl⟩)

/-- The start of a run's own `Reconcile`. -/
theorem reconcile_own (known : spec r = some sp) (holds : Holds sp c.store k)
    (fits : Fits lib sp es r (c.stage r) (c.status r).state k) (result : reconcile lib spec c r now later = some (e,c')) :
    Holds sp c'.store k ∧ Fits lib sp (es ++ [e]) r (c'.stage r) (c'.status r).state k := by
  unfold reconcile at result
  split at result
  · rename_i ready
    rw [ready.1] at fits
    simp only [known] at result
    rcases fits with ⟨state,bound⟩ | ⟨state,built⟩ | ⟨state,none_left⟩
    · simp only [state] at result
      obtain ⟨rfl,rfl⟩ := Prod.mk.inj (Option.some.inj result)
      refine ⟨holds,?_⟩
      simp only [Cluster.enter,Function.update_self]
      exact ⟨state,bound⟩
    · simp only [state] at result
      split at result
      · rename_i enough
        obtain ⟨rfl,rfl⟩ := Prod.mk.inj (Option.some.inj result)
        refine ⟨holds,?_⟩
        simp only [Cluster.enter,Function.update_self]
        exact ⟨state,enough,by simp,built.imp id (And.imp id fun torn => torn.later _)⟩
      · obtain ⟨rfl,rfl⟩ := Prod.mk.inj (Option.some.inj result)
        simp only [ready.1]
        exact ⟨holds,.inr (.inl ⟨state,built.imp id (And.imp id fun torn => torn.later _)⟩)⟩
    · simp only [state] at result
      obtain ⟨rfl,rfl⟩ := Prod.mk.inj (Option.some.inj result)
      simp only [ready.1]
      exact ⟨holds,.inr (.inr ⟨state,none_left⟩)⟩
  · simp at result

omit [DecidableEq ι] in
/-- A call that fails leaves the run where it was. -/
theorem Fits.fail {stage : Stage} {state : RunState} (fits : Fits lib sp es r stage state k) :
    Fits lib sp es r .idle state k := by
  cases stage with
  | idle => exact fits
  | space => exact .inl fits
  | quota => exact .inl ⟨fits.1,fits.2.2⟩
  | policy => exact .inl ⟨fits.1,fits.2.2⟩
  | pod => exact .inl ⟨fits.1,fits.2.2⟩
  | running => exact .inl ⟨fits.1,Nat.le_of_eq fits.2⟩
  | delete t => exact .inr (.inl ⟨fits.1,fits.2.2.2⟩)
  | succeeded => exact .inr (.inl ⟨fits.1,.inr fits.2⟩)

omit [DecidableEq ι] in
/-- What the state of a run tells about its objects, whatever its next call is. -/
theorem Fits.state {stage : Stage} {state : RunState} (fits : Fits lib sp es r stage state k) :
    state = .empty ∧ k ≤ 4 ∨ state = .running ∧ (k = 4 ∨ k = 0 ∧ Torn lib sp es r) ∨ state = .succeeded ∧ k = 0 :=
  fits.fail

/-- What a step leaves alone: the other runs, and every namespace but its own. -/
structure Apart (spec : ι → Option Spec) (r : ι) (c c' : Cluster ι) : Prop where
  runs : ∀ j, j ≠ r → c'.stage j = c.stage j ∧ c'.status j = c.status j
  spaces : ∀ n, (∀ sp, spec r = some sp → n ≠ runNamespace sp) → Same n c.store c'.store

omit [DecidableEq ι] in
theorem Apart.trans (first : Apart spec r c c') (second : Apart spec r c' c'') : Apart spec r c c'' := by
  refine ⟨fun j other => ?_,fun n foreign => ?_⟩
  · obtain ⟨stage,status⟩ := first.runs j other
    obtain ⟨stage',status'⟩ := second.runs j other
    exact ⟨stage'.trans stage,status'.trans status⟩
  · obtain ⟨space,object⟩ := first.spaces n foreign
    obtain ⟨space',object'⟩ := second.spaces n foreign
    exact ⟨space'.trans space,object'.trans object⟩

theorem enter_apart (stage : Stage) : Apart spec r c (c.enter r stage) :=
  ⟨fun j other => ⟨by simp [Cluster.enter,other],rfl⟩,fun _ _ => ⟨rfl,rfl⟩⟩

theorem setStatus_apart (status : Status) : Apart spec r c (c.setStatus r status) :=
  ⟨fun j other => ⟨rfl,by simp [Cluster.setStatus,other]⟩,fun _ _ => ⟨rfl,rfl⟩⟩

omit [DecidableEq ι] in
theorem clock_apart (clock : Int) : Apart spec r c { c with clock := clock } :=
  ⟨fun _ _ => ⟨rfl,rfl⟩,fun _ _ => ⟨rfl,rfl⟩⟩

omit [DecidableEq ι] in
theorem store_apart (known : spec r = some sp) {store : Store Text Key Manifest}
    (same : ∀ n, n ≠ runNamespace sp → Same n c.store store) : Apart spec r c { c with store := store } :=
  ⟨fun _ _ => ⟨rfl,rfl⟩,fun n foreign => same n (foreign sp known)⟩

theorem created_apart (known : spec r = some sp) {answer : Answer × Store Text Key Manifest} (next : Stage)
    (same : ∀ n, n ≠ runNamespace sp → Same n c.store answer.2) : Apart spec r c (created c r sp answer next).2 := by
  obtain ⟨answer,store⟩ := answer
  cases answer with
  | notFound => exact enter_apart _
  | _ => exact (store_apart known same).trans (enter_apart _)

theorem call_apart (known : spec r = some sp) (result : call lib sp c r now = some (e,c')) : Apart spec r c c' := by
  cases stage : c.stage r with
  | idle => simp [call,stage] at result
  | space =>
    simp only [call,stage] at result
    rw [← (Prod.mk.inj (Option.some.inj result)).2]
    exact created_apart known _ fun n other => createSpace_other other
  | quota | policy | pod =>
    simp only [call,stage] at result
    rw [← (Prod.mk.inj (Option.some.inj result)).2]
    exact created_apart known _ fun n other => create_other other
  | running | succeeded =>
    simp only [call,stage] at result
    obtain ⟨rfl,rfl⟩ := Prod.mk.inj (Option.some.inj result)
    exact (setStatus_apart _).trans (enter_apart _)
  | delete t =>
    simp only [call,stage] at result
    obtain ⟨rfl,rfl⟩ := Prod.mk.inj (Option.some.inj result)
    exact (store_apart known fun n other => deleteSpace_other other).trans (enter_apart _)

theorem reconcile_moves (result : reconcile lib spec c r now later = some (e,c')) :
    c' = { c with clock := later } ∨ ∃ stage, c' = { c with clock := later }.enter r stage := by
  unfold reconcile at result
  split at result
  · split at result
    · exact .inl (Prod.mk.inj (Option.some.inj result)).2.symm
    · dsimp only at result
      split at result
      · exact .inr ⟨_,(Prod.mk.inj (Option.some.inj result)).2.symm⟩
      · split at result
        · exact .inr ⟨_,(Prod.mk.inj (Option.some.inj result)).2.symm⟩
        · exact .inl (Prod.mk.inj (Option.some.inj result)).2.symm
      · exact .inl (Prod.mk.inj (Option.some.inj result)).2.symm
  · simp at result

theorem reconcile_apart (result : reconcile lib spec c r now later = some (e,c')) : Apart spec r c c' := by
  rcases reconcile_moves result with rfl | ⟨stage,rfl⟩
  · exact clock_apart _
  · exact (clock_apart _).trans (enter_apart _)

/-- What an action does, once it is known to be possible. -/
inductive Moves (lib : TimeLib) (spec : ι → Option Spec) (c : Cluster ι) : Action ι → Event ι → Cluster ι → Prop
  | reconcile (r : ι) (now later : Int) (o : Event ι) (t : Cluster ι)
      (result : reconcile lib spec c r now later = some (o,t)) : Moves lib spec c (.reconcile r now later) o t
  | missed (r : ι) (err : Option Text) (o : Event ι) : Moves lib spec c (.missed r err) o c
  | call (r : ι) (now : Int) (sp : Spec) (o : Event ι) (t : Cluster ι) (known : spec r = some sp)
      (result : call lib sp { c with clock := now } r now = some (o,t)) : Moves lib spec c (.call r now none) o t
  | fails (r : ι) (now : Int) (err : Text) (o : Event ι) (known : spec r ≠ none) :
      Moves lib spec c (.call r now (some err)) o ({ c with clock := now }.enter r .idle)

theorem step_moves (a : Action ι) (result : step lib spec c a = some (e,c')) : Moves lib spec c a e c' := by
  cases a with
  | reconcile r now later => exact .reconcile r now later _ _ result
  | missed r err =>
    simp only [step] at result
    split at result
    · obtain ⟨rfl,rfl⟩ := Prod.mk.inj (Option.some.inj result)
      exact .missed r err _
    · simp at result
  | call r now err =>
    simp only [step] at result
    split at result
    · simp at result
    · rename_i sp known
      split at result
      · cases err with
        | none => exact .call r now sp _ _ known result
        | some err =>
          obtain ⟨rfl,rfl⟩ := Prod.mk.inj (Option.some.inj result)
          exact .fails r now err _ (by simp [known])
      · simp at result

theorem step_apart (moves : Moves lib spec c a e c') : Apart spec a.run c c' := by
  cases moves with
  | reconcile r now later o t result => exact reconcile_apart result
  | missed r err o => exact clock_apart c.clock
  | call r now sp o t known result => exact (clock_apart _).trans (call_apart known result)
  | fails r now err o known => exact (clock_apart _).trans (enter_apart _)

theorem step_own (known : spec a.run = some sp) (holds : Holds sp c.store k)
    (fits : Fits lib sp es a.run (c.stage a.run) (c.status a.run).state k) (moves : Moves lib spec c a e c') :
    ∃ k', Holds sp c'.store k' ∧ Fits lib sp (es ++ [e]) a.run (c'.stage a.run) (c'.status a.run).state k' := by
  cases moves with
  | reconcile r now later o t result => exact ⟨k,reconcile_own known holds fits result⟩
  | missed r err o => exact ⟨k,holds,fits.later _⟩
  | call r now sp' o t known' result =>
    obtain rfl := Option.some.inj (known'.symm.trans known)
    exact call_own (c := { c with clock := now }) holds fits result
  | fails r now err o _ =>
    refine ⟨k,holds,?_⟩
    simp only [Cluster.enter,Action.run,Function.update_self]
    exact fits.fail.later _

def Distinct (spec : ι → Option Spec) : Prop :=
  ∀ i j sp sp', spec i = some sp → spec j = some sp' → sp.submissionID = sp'.submissionID → i = j

/-- A run without a spec is never touched. -/
theorem step_unknown (unknown : spec r = none) (moves : Moves lib spec c a e c') :
    c'.stage r = c.stage r ∧ c'.status r = c.status r := by
  by_cases own : r = a.run
  · subst own
    cases moves with
    | reconcile r now later o t result =>
      simp only [reconcile] at result
      split at result
      · simp only [show spec r = none from unknown] at result
        obtain ⟨rfl,rfl⟩ := Prod.mk.inj (Option.some.inj result)
        exact ⟨rfl,rfl⟩
      · simp at result
    | missed r err o => exact ⟨rfl,rfl⟩
    | call r now sp o t known result => cases known.symm.trans unknown
    | fails r now err o known => exact absurd unknown known
  · exact (step_apart moves).runs r own

theorem step_upheld (distinct : Distinct spec) (upheld : Upheld lib spec es c) (moves : Moves lib spec c a e c') :
    Upheld lib spec (es ++ [e]) c' := by
  have apart := step_apart moves
  refine ⟨fun r sp known => ?_,fun r unknown => ?_⟩
  · obtain ⟨k,holds,fits⟩ := upheld.known r sp known
    by_cases own : r = a.run
    · subst own
      exact step_own known holds fits moves
    · obtain ⟨stage,status⟩ := apart.runs r own
      have foreign : ∀ sp', spec a.run = some sp' → runNamespace sp ≠ runNamespace sp' := by
        intro sp' known' same
        exact own (distinct _ _ sp sp' known known' (runNamespace_injective same))
      refine ⟨k,holds.same (apart.spaces _ foreign),?_⟩
      rw [stage,status]
      exact fits.later e
  · obtain ⟨stage,status⟩ := step_unknown unknown moves
    rw [stage,status]
    exact upheld.unknown r unknown

/-- The cluster has none of the namespaces of the runs, nor anything in them. -/
def Clear (spec : ι → Option Spec) (store : Store Text Key Manifest) : Prop :=
  ∀ r sp, spec r = some sp → store.space (runNamespace sp) = none ∧ ∀ key, store.object (runNamespace sp) key = none

theorem run_upheld {store : Store Text Key Manifest} {clock : Int} (distinct : Distinct spec) (clear : Clear spec store)
    (actions : List (Action ι)) (result : run (step lib spec) actions (start store clock) = some (es,c)) :
    Upheld lib spec es c := by
  have begins : Upheld lib spec [] (start store clock) := by
    refine ⟨fun r sp known => ?_,fun r _ => ⟨rfl,rfl⟩⟩
    obtain ⟨space,object⟩ := clear r sp known
    exact ⟨0,.clear space object,.inl ⟨rfl,by omega⟩⟩
  simpa using run_preserves (Upheld lib spec)
    (fun _ _ a _ _ before step => step_upheld distinct before (step_moves a step)) actions [] begins result

/-- The states of a run go from empty to Running to Succeeded. -/
inductive Proceeds : RunState → RunState → Prop where
  | stays (s : RunState) : Proceeds s s
  | starts : Proceeds .empty .running
  | ends : Proceeds .running .succeeded

theorem created_status (answer : Answer × Store Text Key Manifest) (next : Stage) :
    (created c r sp answer next).2.status = c.status := by
  obtain ⟨answer,store⟩ := answer
  cases answer <;> rfl

theorem call_proceeds (fits : Fits lib sp es r (c.stage r) (c.status r).state k)
    (result : call lib sp c r now = some (e,c')) :
    Proceeds (c.status r).state (c'.status r).state := by
  have kept {answer : Answer × Store Text Key Manifest} {next : Stage}
      (result : some (created c r sp answer next) = some (e,c')) : Proceeds (c.status r).state (c'.status r).state := by
    have same : (created c r sp answer next).2 = c' := congrArg Prod.snd (Option.some.inj result)
    rw [← same,created_status]
    exact .stays _
  cases stage : c.stage r with
  | idle => simp [call,stage] at result
  | running =>
    rw [stage] at fits
    simp only [call,stage] at result
    obtain ⟨rfl,rfl⟩ := Prod.mk.inj (Option.some.inj result)
    simpa [fits.1,Cluster.enter,Cluster.setStatus] using Proceeds.starts
  | delete t =>
    simp only [call,stage] at result
    obtain ⟨rfl,rfl⟩ := Prod.mk.inj (Option.some.inj result)
    exact .stays _
  | succeeded =>
    rw [stage] at fits
    simp only [call,stage] at result
    obtain ⟨rfl,rfl⟩ := Prod.mk.inj (Option.some.inj result)
    simpa [fits.1,Cluster.enter,Cluster.setStatus] using Proceeds.ends
  | _ =>
    simp only [call,stage] at result
    exact kept result

theorem step_proceeds (upheld : Upheld lib spec es c) (moves : Moves lib spec c a e c') (r : ι) :
    Proceeds (c.status r).state (c'.status r).state := by
  by_cases own : r = a.run
  · subst own
    cases moves with
    | reconcile r now later o t result =>
      rcases reconcile_moves result with rfl | ⟨stage,rfl⟩ <;> exact .stays _
    | missed r err o => exact .stays _
    | call r now sp o t known result =>
      obtain ⟨k,_,fits⟩ := upheld.known r sp known
      exact call_proceeds (c := { c with clock := now }) fits result
    | fails r now err o known => exact .stays _
  · rw [((step_apart moves).runs r own).2]
    exact .stays _

/-- In every state of every run of the controller, whatever calls fail: the pod of a run comes
with its namespace, quota and policy; Running means that all four are there or that the namespace
was deleted once the duration had elapsed; Succeeded means that nothing is left; and the states
only go from empty to Running to Succeeded. -/
theorem sandbox_complete {store : Store Text Key Manifest} {clock : Int} (distinct : Distinct spec)
    (clear : Clear spec store)
    (actions : List (Action ι)) (result : run (step lib spec) actions (start store clock) = some (es,c)) :
    (∀ r sp, spec r = some sp →
      (c.store.object (runNamespace sp) contestantEngine ≠ none →
        c.store.space (runNamespace sp) = some (namespaceOf sp) ∧
        c.store.object (runNamespace sp) runLimits = some quota ∧
        c.store.object (runNamespace sp) blockEgress = some netPol) ∧
      ((c.status r).state = .running →
        (c.store.space (runNamespace sp) = some (namespaceOf sp) ∧
          c.store.object (runNamespace sp) runLimits = some quota ∧
          c.store.object (runNamespace sp) blockEgress = some netPol ∧
          c.store.object (runNamespace sp) contestantEngine = some (podOf sp)) ∨ Torn lib sp es r) ∧
      ((c.status r).state = .succeeded →
        c.store.space (runNamespace sp) = none ∧ ∀ key, c.store.object (runNamespace sp) key = none)) ∧
    (∀ r, (c.status r).state = .empty ∨ (c.status r).state = .running ∨ (c.status r).state = .succeeded) ∧
    ∀ front a rest os t o t', actions = front ++ a :: rest → run (step lib spec) front (start store clock) = some (os,t) →
      step lib spec t a = some (o,t') → ∀ r, Proceeds (t.status r).state (t'.status r).state := by
  have upheld := run_upheld distinct clear actions result
  refine ⟨?_,?_,?_⟩
  · intro r sp known
    obtain ⟨k,holds,fits⟩ := upheld.known r sp known
    have keys := contents_distinct sp
    have space := holds.space
    have limits := holds.item keys (i := 0) rfl
    have egress := holds.item keys (i := 1) rfl
    have engine := holds.item keys (i := 2) rfl
    refine ⟨?_,?_,?_⟩
    · intro there
      rw [engine] at there
      have all : 4 ≤ k := by
        by_contra few
        exact there (if_neg few)
      rw [space,limits,egress,if_pos (by omega),if_pos (by omega),if_pos (by omega)]
      exact ⟨rfl,rfl,rfl⟩
    · intro running
      rcases fits.state with ⟨state,_⟩ | ⟨_,rfl | ⟨_,torn⟩⟩ | ⟨state,_⟩
      · simp [running] at state
      · exact .inl ⟨space,limits,egress,engine⟩
      · exact .inr torn
      · simp [running] at state
    · intro succeeded
      rcases fits.state with ⟨state,_⟩ | ⟨state,_⟩ | ⟨_,rfl⟩
      · simp [succeeded] at state
      · simp [succeeded] at state
      · exact holds.cleared
  · intro r
    cases known : spec r with
    | none => exact .inl (upheld.unknown r known).2
    | some sp =>
      obtain ⟨k,_,fits⟩ := upheld.known r sp known
      exact fits.state.imp And.left (Or.imp And.left And.left)
  · intro front a rest os t o t' _ before step r
    exact step_proceeds (run_upheld distinct clear front before) (step_moves a step) r

/-- Durations of whole seconds, such as 5s. -/
def parseSeconds (text : Text) : Option Int :=
  if text.getLast? = some 's' ∧ text.dropLast ≠ [] ∧ text.dropLast.all Char.isDigit then
    some ((text.dropLast.foldl (fun n c => 10 * n + (c.toNat - 48)) 0 : Nat) * second)
  else none

/-- Times are written as tallies of whole seconds. -/
def tallied : TimeLib where
  parseDuration := parseSeconds
  format := fun t => match t / second with
    | .ofNat n => List.replicate n '+'
    | .negSucc n => List.replicate (n + 1) '-'
  parse := fun text => some ((text.count '+' - text.count '-' : Int) * second)

def emptyStore : Store Text Key Manifest := ⟨fun _ => none,fun _ _ => none⟩

def twoRuns (submission submission' : Text) : Bool → Option Spec
  | false => some ⟨['c'],submission,['x'],"5s".toList⟩
  | true => some ⟨['d'],submission',['y'],"5s".toList⟩

theorem twoRuns_distinct (differ : a ≠ b) : Distinct (twoRuns a b) := by
  intro i j sp sp' known known' same
  cases i <;> cases j <;> simp [twoRuns] at known known' <;> subst known known'
  · rfl
  · exact absurd same differ
  · exact absurd same.symm differ
  · rfl

omit [DecidableEq ι] in
theorem emptyStore_clear (spec : ι → Option Spec) : Clear spec emptyStore := fun _ _ _ => ⟨rfl,fun _ => rfl⟩

/-- The quota of the first run fails to be created at first; the run is torn down after five
seconds while the second is half-way, and its last update fails. -/
def failingCalls : List (Action Bool) :=
  [.reconcile false 0 0,.call false 0 none,.call false 0 (some ['e']),.reconcile false 0 0] ++
    List.replicate 5 (.call false 0 none) ++
    [.reconcile true 1 1,.call true 1 none,.reconcile false (5 * second) (5 * second),.call false (5 * second) none,
      .call false (5 * second) (some ['e'])]

theorem failingCalls_complete : ∃ es c,
    run (step tallied (twoRuns ['s'] ['t'])) failingCalls (start emptyStore 0) = some (es,c) ∧
    (c.status false).state = .running ∧ .tornDown false (5 * second) ∈ es ∧
    (∀ r sp, twoRuns ['s'] ['t'] r = some sp →
      (c.store.object (runNamespace sp) contestantEngine ≠ none →
        c.store.space (runNamespace sp) = some (namespaceOf sp) ∧
        c.store.object (runNamespace sp) runLimits = some quota ∧
        c.store.object (runNamespace sp) blockEgress = some netPol) ∧
      ((c.status r).state = .running →
        (c.store.space (runNamespace sp) = some (namespaceOf sp) ∧
          c.store.object (runNamespace sp) runLimits = some quota ∧
          c.store.object (runNamespace sp) blockEgress = some netPol ∧
          c.store.object (runNamespace sp) contestantEngine = some (podOf sp)) ∨ Torn tallied sp es r) ∧
      ((c.status r).state = .succeeded →
        c.store.space (runNamespace sp) = none ∧ ∀ key, c.store.object (runNamespace sp) key = none)) := by
  obtain ⟨es,c,result,running,torn⟩ : ∃ es c,
      run (step tallied (twoRuns ['s'] ['t'])) failingCalls (start emptyStore 0) = some (es,c) ∧
      (c.status false).state = .running ∧ .tornDown false (5 * second) ∈ es := ⟨_,_,rfl,rfl,by decide⟩
  exact ⟨es,c,result,running,torn,
    (sandbox_complete (twoRuns_distinct (by decide)) (emptyStore_clear _) failingCalls result).1⟩

/-- No call fails, and the run is found. -/
def Faultless (actions : List (Action ι)) : Prop :=
  ∀ a ∈ actions, match a with
    | .reconcile .. => True
    | .missed .. => False
    | .call _ _ err => err = none

/-- One `Reconcile` that starts a run. -/
def provisioning (r : ι) (now : Int) : List (Action ι) := .reconcile r now now :: List.replicate 5 (.call r now none)

def furnish (s : Store Text Key Manifest) (sp : Spec) : Store Text Key Manifest :=
  ((((s.createSpace (runNamespace sp) (namespaceOf sp)).2.create (runNamespace sp) runLimits quota).2.create
    (runNamespace sp) blockEgress netPol).2.create (runNamespace sp) contestantEngine (podOf sp)).2

omit [DecidableEq ι] in
theorem createSpace_there (s : Store Text Key Manifest) (n : Text) (o : Manifest) :
    (s.createSpace n o).2.space n ≠ none := by
  unfold Store.createSpace
  split
  · rename_i there
    simp [there]
  · simp

omit [DecidableEq ι] in
theorem create_there {s : Store Text Key Manifest} {n : Text} (there : s.space n ≠ none) (key : Key) (o : Manifest) :
    (s.create n key o).1 ≠ .notFound ∧ (s.create n key o).2.space n ≠ none := by
  obtain ⟨old,space⟩ := Option.ne_none_iff_exists'.mp there
  cases object : s.object n key <;> simp [Store.create,space,object]

/-- The cluster after that `Reconcile`. -/
def provisioned (lib : TimeLib) (c : Cluster ι) (r : ι) (sp : Spec) (now : Int) : Cluster ι where
  store := furnish c.store sp
  status := Function.update c.status r { noStatus with state := .running, startedAt := lib.format now }
  stage := Function.update c.stage r .idle
  clock := now

/-- A run starts whatever it finds in its namespace. -/
theorem run_provisioning (lib : TimeLib) (known : spec r = some sp) (idle : c.stage r = .idle)
    (state : (c.status r).state = .empty) (time : c.clock ≤ now) :
    run (step lib spec) (provisioning r now) c =
      some (List.replicate 5 (.working r) ++ [.returned r (.requeueAfter (5 * second))],provisioned lib c r sp now) ∧
    (furnish c.store sp).space (runNamespace sp) ≠ none := by
  have there := createSpace_there c.store (runNamespace sp) (namespaceOf sp)
  have first := createSpace_found c.store (runNamespace sp) (namespaceOf sp)
  obtain ⟨second,there⟩ := create_there there runLimits quota
  obtain ⟨third,there⟩ := create_there there blockEgress netPol
  obtain ⟨fourth,there⟩ := create_there there contestantEngine (podOf sp)
  refine ⟨?_,there⟩
  simp [provisioning,List.replicate,run,step,reconcile,call,known,idle,state,time,Cluster.enter,Cluster.setStatus,
    created_eq first,created_eq second,created_eq third,created_eq fourth,provisioned,furnish]

/-- The end of a run takes everything in its namespace with it. -/
theorem run_teardown (lib : TimeLib) (known : spec r = some sp) (idle : c.stage r = .idle)
    (state : (c.status r).state = .running)
    (time : c.clock ≤ now ∧ now ≤ later) (enough : duration lib sp ≤ later - (lib.parse (c.status r).startedAt).getD now)
    (there : c.store.space (runNamespace sp) ≠ none) :
    ∃ t c', run (step lib spec) [.reconcile r now later,.call r later none] c = some ([.elapsed r,.tornDown r t],c') ∧
      c'.status = c.status ∧ ∀ key, c'.store.object (runNamespace sp) key = none := by
  obtain ⟨old,space⟩ := Option.ne_none_iff_exists'.mp there
  simp [run,step,reconcile,call,known,idle,state,time.1,time.2,enough,Cluster.enter,Store.deleteSpace,space]

/-- Two runs for one submission: the second starts in the namespace of the first and loses it
when the first ends. -/
theorem shared_submission (lib : TimeLib) (store : Store Text Key Manifest) (clock : Int) {i j : ι} {sp' : Spec}
    (known : spec i = some sp)
    (known' : spec j = some sp') (same : sp.submissionID = sp'.submissionID) (differ : i ≠ j) :
    ∃ actions es c, Faultless actions ∧ run (step lib spec) actions (start store clock) = some (es,c) ∧
      (c.status j).state = .running ∧ .elapsed j ∉ es ∧ c.store.object (runNamespace sp') contestantEngine = none := by
  have spaces : runNamespace sp' = runNamespace sp := by simp [runNamespace,same]
  let c₁ := provisioned lib (start store clock) i sp clock
  let c₂ := provisioned lib c₁ j sp' clock
  let later := max clock ((lib.parse (lib.format clock)).getD clock + duration lib sp)
  have idle : c₁.stage j = .idle ∧ c₂.stage i = .idle := by simp [c₁,c₂,provisioned,start]
  have fresh : (c₁.status j).state = .empty := by simp [c₁,provisioned,start,differ.symm,noStatus]
  have running : (c₂.status i).state = .running ∧ (c₂.status i).startedAt = lib.format clock := by
    simp [c₁,c₂,provisioned,differ]
  obtain ⟨first,_⟩ := run_provisioning lib (c := start store clock) known rfl rfl (Int.le_refl clock)
  obtain ⟨second,there⟩ := run_provisioning lib (c := c₁) known' idle.1 fresh (Int.le_refl clock)
  rw [spaces] at there
  obtain ⟨t,c,third,status,gone⟩ := run_teardown lib (c := c₂) known idle.2 running.1
    (⟨Int.le_refl clock,by omega⟩ : clock ≤ clock ∧ clock ≤ later) (by rw [running.2]; omega) there
  refine ⟨_,_,c,?_,run_append (run_append first second) third,?_,?_,?_⟩
  · simp [Faultless,provisioning]
  · rw [status]
    simp [c₂,provisioned]
  · simp [differ.symm]
  · rw [spaces]
    exact gone _

/-- Each run has its own pod with its own image until it sees its duration elapsed, in every
interleaving, exactly if no two runs are for the same submission. -/
theorem runs_apart_iff {store : Store Text Key Manifest} {clock : Int} (clear : Clear spec store) :
    (∀ actions es c, Faultless actions → run (step lib spec) actions (start store clock) = some (es,c) →
      ∀ r sp, spec r = some sp → (c.status r).state = .running → .elapsed r ∉ es →
        ∃ pod, c.store.object (runNamespace sp) contestantEngine = some pod ∧ pod.images = [sp.image]) ↔
    Distinct spec := by
  constructor
  · intro all i j sp sp' known known' same
    by_contra differ
    obtain ⟨actions,es,c,faultless,result,running,unseen,gone⟩ :=
      shared_submission lib store clock known known' same differ
    obtain ⟨pod,there,_⟩ := all actions es c faultless result j sp' known' running unseen
    simp [gone] at there
  · intro distinct actions es c _ result r sp known running unseen
    obtain ⟨k,holds,fits⟩ := (run_upheld distinct clear actions result).known r sp known
    have engine := holds.item (contents_distinct sp) (i := 2) rfl
    rcases fits.state with ⟨state,_⟩ | ⟨_,rfl | ⟨_,torn⟩⟩ | ⟨state,_⟩
    · simp [running] at state
    · exact ⟨podOf sp,engine,rfl⟩
    · exact absurd torn.1 unseen
    · simp [running] at state

theorem twoRuns_apart_iff :
    (∀ actions es c, Faultless actions →
      run (step tallied (twoRuns ['s'] ['t'])) actions (start emptyStore 0) = some (es,c) →
      ∀ r sp, twoRuns ['s'] ['t'] r = some sp → (c.status r).state = .running → .elapsed r ∉ es →
        ∃ pod, c.store.object (runNamespace sp) contestantEngine = some pod ∧ pod.images = [sp.image]) ↔
    Distinct (twoRuns ['s'] ['t']) :=
  runs_apart_iff (emptyStore_clear _)

/-- Of two runs for one submission the second is Running with the image of the first, and without
a pod once the first has ended. -/
theorem shared_submission_interferes :
    (∃ es c, run (step tallied (twoRuns ['s'] ['s'])) (provisioning false 0 ++ provisioning true 0)
      (start emptyStore 0) = some (es,c) ∧ (c.status true).state = .running ∧ .elapsed true ∉ es ∧
      (c.store.object "run-s".toList contestantEngine).map Manifest.images = some [['x']]) ∧
    ∃ es c, run (step tallied (twoRuns ['s'] ['s'])) (provisioning false 0 ++ provisioning true 0 ++
        [.reconcile false (5 * second) (5 * second),.call false (5 * second) none]) (start emptyStore 0) = some (es,c) ∧
      (c.status true).state = .running ∧ .elapsed true ∉ es ∧ c.store.object "run-s".toList contestantEngine = none :=
  ⟨⟨_,_,rfl,rfl,by decide,rfl⟩,⟨_,_,rfl,rfl,by decide,rfl⟩⟩

end TradingPlatform.Controller
