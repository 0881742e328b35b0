import TradingPlatform.Sandboxes

/-! How long a benchmark run keeps its namespace. The start time goes into the status as text and
comes back without its fraction of a second, so that the elapsed time a later `Reconcile` sees
may be too long by up to a second. -/
namespace TradingPlatform.Controller

open Json Objects Runs

variable {ι : Type} [DecidableEq ι] {lib : TimeLib} {spec : ι → Option Spec} {sp : Spec} {c c' : Cluster ι} {r : ι}
  {e : Event ι} {history : List (Action ι × Event ι)}

/-- RFC3339 without fractions writes whole seconds. -/
def WholeSeconds (lib : TimeLib) : Prop := ∀ t, lib.parse (lib.format t) = some (t / second * second)

/-- A step together with the action it answers. -/
def noted (lib : TimeLib) (spec : ι → Option Spec) (c : Cluster ι) (a : Action ι) :
    Option ((Action ι × Event ι) × Cluster ι) :=
  (step lib spec c a).map fun (e,c') => ((a,e),c')

/-- The clock reading of an update to Running that went through. -/
def startOf (r : ι) : Action ι × Event ι → Option Int
  | (.call q now none,.returned _ (.requeueAfter _)) => if q = r then some now else none
  | _ => none

/-- A namespace that was deleted: for which run and when. -/
def deletionOf : Action ι × Event ι → Option (ι × Int)
  | (.call q now none,.tornDown _ _) => some (q,now)
  | _ => none

def starts (r : ι) (history : List (Action ι × Event ι)) : List Int := history.filterMap (startOf r)

/-- Whenever one of these runs deletes its namespace, this one has been started once, and at least
its duration ago. -/
def FullDuration (lib : TimeLib) (sp : Spec) (among : ι → Prop) (r : ι) (history : List (Action ι × Event ι)) : Prop :=
  ∀ before x after, history = before ++ x :: after → ∀ q t, deletionOf x = some (q,t) → among q →
    ∃ t₀, starts r before = [t₀] ∧ duration lib sp ≤ t - t₀

/-- The fraction that is dropped makes no difference. -/
def Unhurried (lib : TimeLib) (sp : Spec) (t₀ : Int) : Prop := duration lib sp ≤ 0 ∨ second ∣ t₀

omit [DecidableEq ι] in
theorem Unhurried.enough (unhurried : Unhurried lib sp t₀) (past : t₀ ≤ t)
    (seen : duration lib sp ≤ t - t₀ / second * second) : duration lib sp ≤ t - t₀ := by
  rcases unhurried with short | whole
  · omega
  · rwa [Int.ediv_mul_cancel whole] at seen

omit [DecidableEq ι] in
theorem truncated_early (hurried : ¬Unhurried lib sp t₀) : 0 < duration lib sp ∧ t₀ / second * second < t₀ := by
  obtain ⟨positive,fraction⟩ := not_or.mp hurried
  have dropped : 0 < t₀ % second := (Int.emod_pos_of_not_dvd fraction).resolve_left (by decide)
  have parts : t₀ / second * second + t₀ % second = t₀ := Int.ediv_mul_add_emod t₀ second
  omega

theorem startOf_run (found : startOf r x = some t) : x.1.run = r := by
  unfold startOf at found
  split at found
  · rename_i q now _ _
    split at found
    · assumption
    · simp at found
  · simp at found

omit [DecidableEq ι] in
theorem deletionOf_run {x : Action ι × Event ι} (found : deletionOf x = some (q,t)) : x.1.run = q := by
  unfold deletionOf at found
  split at found
  · exact (Prod.mk.inj (Option.some.inj found)).1
  · simp at found

theorem starts_snoc (r : ι) (history : List (Action ι × Event ι)) (x : Action ι × Event ι) :
    starts r (history ++ [x]) = starts r history ++ (startOf r x).toList := by
  rw [starts,List.filterMap_append]
  cases found : startOf r x <;> simp [starts,found]

theorem FullDuration.snoc {among : ι → Prop} (full : FullDuration lib sp among r history)
    (last : ∀ q t, deletionOf x = some (q,t) → among q → ∃ t₀, starts r history = [t₀] ∧ duration lib sp ≤ t - t₀) :
    FullDuration lib sp among r (history ++ [x]) := by
  intro before y after split
  rcases List.eq_nil_or_concat' after with rfl | ⟨after,z,rfl⟩
  · obtain ⟨rfl,same⟩ := List.append_inj' split rfl
    obtain rfl := List.singleton_inj.mp same
    exact last
  · rw [← List.cons_append,← List.append_assoc] at split
    obtain ⟨rfl,_⟩ := List.append_inj' split rfl
    exact full before y after rfl

/-- The status of a run that has been started, and when. -/
def Started (lib : TimeLib) (begun : List Int) (status : Status) (clock t₀ : Int) : Prop :=
  status.state = .running ∧ begun = [t₀] ∧ status.startedAt = lib.format t₀ ∧ t₀ ≤ clock

/-- What the next call of a run says about its start. -/
def Timely (lib : TimeLib) (sp : Spec) (begun : List Int) (status : Status) (clock : Int) : Stage → Prop
  | .idle => status.state = .empty ∧ begun = [] ∨ (∃ t₀, Started lib begun status clock t₀) ∨
      status.state = .succeeded ∧ ∃ t₀, begun = [t₀]
  | .delete _ => ∃ t₀, Started lib begun status clock t₀ ∧ (Unhurried lib sp t₀ → duration lib sp ≤ clock - t₀)
  | .succeeded => ∃ t₀, Started lib begun status clock t₀
  | _ => status.state = .empty ∧ begun = []

omit [DecidableEq ι] in
theorem Started.later (started : Started lib begun status clock t₀) (past : clock ≤ clock') :
    Started lib begun status clock' t₀ :=
  ⟨started.1,started.2.1,started.2.2.1,Int.le_trans started.2.2.2 past⟩

omit [DecidableEq ι] in
theorem Timely.later {stage : Stage} (timely : Timely lib sp begun status clock stage) (past : clock ≤ clock') :
    Timely lib sp begun status clock' stage := by
  cases stage with
  | idle => exact timely.imp id (Or.imp (fun ⟨t₀,started⟩ => ⟨t₀,started.later past⟩) id)
  | delete t =>
    obtain ⟨t₀,started,enough⟩ := timely
    exact ⟨t₀,started.later past,fun unhurried => Int.le_trans (enough unhurried) (by omega)⟩
  | succeeded =>
    obtain ⟨t₀,started⟩ := timely
    exact ⟨t₀,started.later past⟩
  | _ => exact timely

omit [DecidableEq ι] in
/-- After a failed call the next `Reconcile` starts anew. -/
theorem Timely.idle {stage : Stage} (timely : Timely lib sp begun status clock stage) :
    Timely lib sp begun status clock .idle := by
  cases stage with
  | idle => exact timely
  | delete t =>
    obtain ⟨t₀,started,_⟩ := timely
    exact .inr (.inl ⟨t₀,started⟩)
  | succeeded => exact .inr (.inl timely)
  | _ => exact .inl timely

omit [DecidableEq ι] in
/-- No run is started twice. -/
theorem Timely.once {stage : Stage} (timely : Timely lib sp begun status clock stage) : begun.length ≤ 1 := by
  rcases timely.idle with ⟨_,rfl⟩ | ⟨t₀,_,rfl,_⟩ | ⟨_,t₀,rfl⟩ <;> simp

theorem created_cases (c : Cluster ι) (r : ι) (sp : Spec) (answer : Answer × Store Text Key Manifest) (next : Stage) :
    (∃ err, created c r sp answer next = (.returned r (.error err),c.enter r .idle)) ∨
    created c r sp answer next = (.working r,{ c with store := answer.2 }.enter r next) := by
  obtain ⟨answer,store⟩ := answer
  cases answer with
  | notFound => exact .inl ⟨_,rfl⟩
  | _ => exact .inr rfl

theorem created_clock (answer : Answer × Store Text Key Manifest) (next : Stage) :
    (created c r sp answer next).2.clock = c.clock := by
  rcases created_cases c r sp answer next with ⟨err,same⟩ | same <;> rw [same] <;> rfl

theorem call_clock (result : call lib sp c r now = some (e,c')) : c'.clock = c.clock := by
  have kept {answer : Answer × Store Text Key Manifest} {next : Stage}
      (result : some (created c r sp answer next) = some (e,c')) : c'.clock = c.clock := by
    have same : (created c r sp answer next).2 = c' := congrArg Prod.snd (Option.some.inj result)
    rw [← same,created_clock]
  cases stage : c.stage r with
  | idle => simp [call,stage] at result
  | space | quota | policy | pod =>
    simp only [call,stage] at result
    exact kept result
  | running | delete | succeeded =>
    simp only [call,stage] at result
    obtain ⟨_,rfl⟩ := Prod.mk.inj (Option.some.inj result)
    rfl

/-- A call is made now, and the clock does not go back. -/
theorem step_call (result : step lib spec c (.call r now err) = some (e,c')) : c.clock ≤ now ∧ c'.clock = now := by
  have possible : c.clock ≤ now := by
    simp only [step] at result
    split at result
    · simp at result
    · split at result
      · rename_i _ _ _ possible
        exact possible.2
      · simp at result
  refine ⟨possible,?_⟩
  cases step_moves _ result with
  | call _ _ sp o t known result => exact call_clock result
  | fails _ _ err o known => rfl

theorem step_clock (result : step lib spec c a = some (e,c')) : c.clock ≤ c'.clock := by
  cases a with
  | reconcile r now later =>
    have time : c.clock ≤ later := by
      simp only [step,reconcile] at result
      split at result
      · rename_i possible
        exact Int.le_trans possible.2.1 possible.2.2
      · simp at result
    rcases reconcile_moves result with rfl | ⟨stage,rfl⟩ <;> exact time
  | missed r err =>
    cases step_moves _ result with
    | missed => exact Int.le_refl _
  | call r now err =>
    obtain ⟨possible,same⟩ := step_call result
    rwa [same]

/-- A `Reconcile` that finds the run decides by the time it reads back from the status. -/
theorem reconcile_timely (law : WholeSeconds lib) (known : spec r = some sp)
    (timely : Timely lib sp begun (c.status r) c.clock (c.stage r))
    (result : reconcile lib spec c r now later = some (e,c')) :
    Timely lib sp begun (c'.status r) c'.clock (c'.stage r) := by
  unfold reconcile at result
  split at result
  · rename_i possible
    obtain ⟨idle,earlier,order⟩ := possible
    have past : c.clock ≤ later := Int.le_trans earlier order
    have still := timely.later past
    rw [idle] at still
    simp only [known] at result
    split at result
    · rename_i empty
      obtain ⟨_,rfl⟩ := Prod.mk.inj (Option.some.inj result)
      rcases still with fresh | ⟨t₀,started⟩ | finished
      · simp only [Cluster.enter,Function.update_self]
        exact fresh
      · cases started.1.symm.trans empty
      · cases finished.1.symm.trans empty
    · rename_i running
      rcases still with fresh | ⟨t₀,started⟩ | finished
      · cases fresh.1.symm.trans running
      · obtain ⟨state,once,text,past⟩ := started
        simp only [text,law t₀,Option.getD_some] at result
        split at result
        · rename_i seen
          obtain ⟨_,rfl⟩ := Prod.mk.inj (Option.some.inj result)
          simp only [Cluster.enter,Function.update_self]
          exact ⟨t₀,⟨state,once,text,past⟩,fun unhurried => unhurried.enough past seen⟩
        · obtain ⟨_,rfl⟩ := Prod.mk.inj (Option.some.inj result)
          simp only [idle]
          exact .inr (.inl ⟨t₀,state,once,text,past⟩)
      · cases finished.1.symm.trans running
    · obtain ⟨_,rfl⟩ := Prod.mk.inj (Option.some.inj result)
      simp only [idle]
      exact still
  · simp at result

/-- The other calls of a `Reconcile`: one of them starts the run, one of them ends it. -/
theorem call_timely (timely : Timely lib sp begun (c.status r) c.clock (c.stage r))
    (result : call lib sp c r c.clock = some (e,c')) :
    Timely lib sp (begun ++ (startOf r (.call r c.clock none,e)).toList) (c'.status r) c'.clock (c'.stage r) ∧
    ∀ q t, deletionOf (.call r c.clock none,e) = some (q,t) →
      t = c.clock ∧ ∃ t₀, begun = [t₀] ∧ (Unhurried lib sp t₀ → duration lib sp ≤ c.clock - t₀) := by
  have creates {answer : Answer × Store Text Key Manifest} {next : Stage}
      (fresh : (c.status r).state = .empty ∧ begun = [])
      (result : some (created c r sp answer next) = some (e,c'))
      (goes : ∀ clock status, Timely lib sp [] status clock next ↔ status.state = .empty ∧ ([] : List Int) = []) :
      Timely lib sp (begun ++ (startOf r (.call r c.clock none,e)).toList) (c'.status r) c'.clock (c'.stage r) ∧
      ∀ q t, deletionOf (.call r c.clock none,e) ≠ some (q,t) := by
    obtain ⟨empty,rfl⟩ := fresh
    have outcome := Option.some.inj result
    rcases created_cases c r sp answer next with ⟨err,same⟩ | same
    all_goals
      rw [same] at outcome
      obtain ⟨rfl,rfl⟩ := Prod.mk.inj outcome
      refine ⟨?_,by simp [deletionOf]⟩
      simp only [startOf,Option.toList_none,List.append_nil,Cluster.enter,Function.update_self]
    · exact .inl ⟨empty,rfl⟩
    · exact (goes _ _).mpr ⟨empty,rfl⟩
  cases stage : c.stage r with
  | idle => simp [call,stage] at result
  | space | quota | policy | pod =>
    rw [stage] at timely
    simp only [call,stage] at result
    obtain ⟨after,nothing⟩ := creates timely result fun _ _ => Iff.rfl
    exact ⟨after,fun q t deleted => absurd deleted (nothing q t)⟩
  | running =>
    rw [stage] at timely
    obtain ⟨_,rfl⟩ := timely
    simp only [call,stage] at result
    obtain ⟨rfl,rfl⟩ := Prod.mk.inj (Option.some.inj result)
    refine ⟨?_,by simp [deletionOf]⟩
    simp only [startOf,if_true,Cluster.enter,Cluster.setStatus,Function.update_self]
    exact .inr (.inl ⟨c.clock,rfl,rfl,rfl,Int.le_refl _⟩)
  | delete t =>
    rw [stage] at timely
    obtain ⟨t₀,started,enough⟩ := timely
    simp only [call,stage] at result
    obtain ⟨rfl,rfl⟩ := Prod.mk.inj (Option.some.inj result)
    constructor
    · simp only [startOf,Option.toList_none,List.append_nil,Cluster.enter,Function.update_self]
      exact ⟨t₀,started⟩
    · intro q t deleted
      obtain ⟨_,rfl⟩ := Prod.mk.inj (Option.some.inj deleted)
      exact ⟨rfl,t₀,started.2.1,enough⟩
  | succeeded =>
    rw [stage] at timely
    obtain ⟨t₀,started⟩ := timely
    simp only [call,stage] at result
    obtain ⟨rfl,rfl⟩ := Prod.mk.inj (Option.some.inj result)
    refine ⟨?_,by simp [deletionOf]⟩
    simp only [startOf,Option.toList_none,List.append_nil,Cluster.enter,Cluster.setStatus,Function.update_self]
    exact .inr (.inr ⟨rfl,t₀,started.2.1⟩)

/-- What is known of one run in the course of all. -/
structure Kept (lib : TimeLib) (sp : Spec) (r : ι) (history : List (Action ι × Event ι)) (c : Cluster ι) : Prop where
  timely : Timely lib sp (starts r history) (c.status r) c.clock (c.stage r)
  full : (∀ t₀ ∈ starts r history, Unhurried lib sp t₀) → FullDuration lib sp (· = r) r history

/-- A step that neither starts nor ends the run. -/
theorem Kept.quiet (kept : Kept lib sp r history c)
    (timely : Timely lib sp (starts r history) (c'.status r) c'.clock (c'.stage r))
    (noStart : startOf r x = none) (noEnd : ∀ t, deletionOf x ≠ some (r,t)) : Kept lib sp r (history ++ [x]) c' := by
  have same : starts r (history ++ [x]) = starts r history := by simp [starts_snoc,noStart]
  refine ⟨same ▸ timely,fun unhurried => (kept.full (same ▸ unhurried)).snoc ?_⟩
  rintro q t deleted rfl
  exact absurd deleted (noEnd t)

theorem step_kept (law : WholeSeconds lib) (known : spec r = some sp) (kept : Kept lib sp r history c)
    (result : step lib spec c a = some (e,c')) : Kept lib sp r (history ++ [(a,e)]) c' := by
  by_cases own : r = a.run
  · cases step_moves a result with
    | reconcile q now later o t moved =>
      obtain rfl : r = q := own
      exact kept.quiet (reconcile_timely law known kept.timely moved) rfl (by simp [deletionOf])
    | missed q err o =>
      exact kept.quiet kept.timely rfl (by simp [deletionOf])
    | fails q now err o _ =>
      obtain rfl : r = q := own
      have later := kept.timely.later (step_clock result)
      refine kept.quiet ?_ rfl (by simp [deletionOf])
      simp only [Cluster.enter,Function.update_self]
      exact later.idle
    | call q now sp' o t known' moved =>
      obtain rfl : r = q := own
      obtain rfl := Option.some.inj (known'.symm.trans known)
      have later : Timely lib sp' (starts r history) (c.status r) now (c.stage r) :=
        kept.timely.later (step_call result).1
      obtain ⟨after,ends⟩ := call_timely (c := { c with clock := now }) later moved
      refine ⟨starts_snoc r history _ ▸ after,fun unhurried => ?_⟩
      rw [starts_snoc] at unhurried
      refine (kept.full fun t₀ member => unhurried t₀ (List.mem_append_left _ member)).snoc ?_
      intro q t deleted _
      obtain ⟨rfl,t₀,once,enough⟩ := ends q t deleted
      exact ⟨t₀,once,enough (unhurried t₀ (by simp [once]))⟩
  · obtain ⟨stage,status⟩ := (step_apart (step_moves a result)).runs r own
    refine kept.quiet ?_ ?_ ?_
    · rw [stage,status]
      exact kept.timely.later (step_clock result)
    · exact Option.eq_none_iff_forall_ne_some.mpr fun t started => own (startOf_run started).symm
    · exact fun t deleted => own (deletionOf_run deleted).symm

theorem noted_eq (result : noted lib spec c a = some (x,c')) : ∃ e, x = (a,e) ∧ step lib spec c a = some (e,c') := by
  obtain ⟨⟨e,t⟩,moved,same⟩ := Option.map_eq_some_iff.mp result
  obtain ⟨rfl,rfl⟩ := Prod.mk.inj same
  exact ⟨e,rfl,moved⟩

theorem run_kept {store : Store Text Key Manifest} {clock : Int} (law : WholeSeconds lib) (known : spec r = some sp)
    (actions : List (Action ι)) (result : run (noted lib spec) actions (start store clock) = some (history,c)) :
    Kept lib sp r history c := by
  have begins : Kept lib sp r [] (start store clock) := by
    refine ⟨.inl ⟨rfl,rfl⟩,fun _ => ?_⟩
    intro before x after split
    simp at split
  simpa using run_preserves (Kept lib sp r) (fun history c a x c' kept moved => by
    obtain ⟨e,rfl,step⟩ := noted_eq moved
    exact step_kept law known kept step) actions [] begins result

/-- However the schedule goes on from a point at which a run is about to be started, these runs
leave it its full duration. -/
def Lasting (lib : TimeLib) (spec : ι → Option Spec) (sp : Spec) (among : ι → Prop) (r : ι) (front : List (Action ι))
    (t₀ : Int) (c : Cluster ι) : Prop :=
  ∀ rest history c', run (noted lib spec) (front ++ .call r t₀ none :: rest) c = some (history,c') →
    FullDuration lib sp among r history

theorem noted_start (lib : TimeLib) (known : spec r = some sp) (stage : c.stage r = .running) (time : c.clock ≤ t₀) :
    ∃ c', noted lib spec c (.call r t₀ none) = some ((.call r t₀ none,.returned r (.requeueAfter (5 * second))),c') ∧
      c'.stage r = .idle ∧ (c'.status r).state = .running ∧ (c'.status r).startedAt = lib.format t₀ ∧ c'.clock = t₀ := by
  simp [noted,step,call,known,stage,time,Cluster.enter,Cluster.setStatus]

/-- A `Reconcile` that sees the run over deletes the namespace at once. -/
theorem run_noted_teardown (now : Int) (law : WholeSeconds lib) (known : spec r = some sp) (idle : c.stage r = .idle)
    (state : (c.status r).state = .running) (startedAt : (c.status r).startedAt = lib.format t₀) (time : c.clock ≤ now)
    (seen : duration lib sp ≤ now - t₀ / second * second) :
    ∃ c' elapsed, run (noted lib spec) [.reconcile r now now,.call r now none] c =
      some ([(.reconcile r now now,.elapsed r),(.call r now none,.tornDown r elapsed)],c') := by
  simp [run,noted,step,reconcile,call,known,idle,state,startedAt,time,seen,Cluster.enter,law t₀]

/-- A run that is about to be started gets its duration in every schedule exactly if the duration
is not positive or the clock shows a whole second; its own `Reconcile` is the only one that can
delete the namespace unless another run is for the same submission. -/
theorem full_duration_iff {store : Store Text Key Manifest} {clock t₀ : Int} {front : List (Action ι)}
    (law : WholeSeconds lib)
    (known : spec r = some sp) (reached : run (noted lib spec) front (start store clock) = some (history,c))
    (stage : c.stage r = .running) (time : c.clock ≤ t₀) :
    (Lasting lib spec sp (· = r) r front t₀ (start store clock) ↔ Unhurried lib sp t₀) ∧
    ((∀ q sq, spec q = some sq → sq.submissionID = sp.submissionID → q = r) →
      (Lasting lib spec sp (fun q => ∃ sq, spec q = some sq ∧ runNamespace sq = runNamespace sp) r front t₀
        (start store clock) ↔
        Unhurried lib sp t₀)) := by
  obtain ⟨c₁,started,idle,state,startedAt,now⟩ := noted_start lib known stage time
  have own : Lasting lib spec sp (· = r) r front t₀ (start store clock) ↔ Unhurried lib sp t₀ := by
    constructor
    · intro lasting
      by_contra hurried
      obtain ⟨positive,early⟩ := truncated_early hurried
      obtain ⟨c₂,elapsed,torn⟩ := run_noted_teardown (max t₀ (t₀ / second * second + duration lib sp))
        law known idle state startedAt (by omega) (by omega)
      have whole := run_append reached (run_cons started torn)
      obtain ⟨t,once,enough⟩ := lasting _ _ _ whole _ _ [] (List.append_assoc history [_,_] [_]).symm r _ rfl rfl
      have begun : starts r history ++ [t₀] = [t] := by simpa [starts,startOf,List.filterMap_cons] using once
      obtain ⟨_,same⟩ := List.append_inj' (begun.trans (List.nil_append [t]).symm) rfl
      obtain rfl := List.singleton_inj.mp same
      omega
    · intro unhurried rest history' c' result
      have kept := run_kept law known _ result
      refine kept.full fun t member => ?_
      obtain ⟨first,later,c₂,before,after,rfl⟩ := run_append_inv result
      obtain ⟨rfl,rfl⟩ := outcome_unique reached before
      obtain ⟨x,later,c₃,next,_,rfl⟩ := run_cons_inv after
      obtain ⟨rfl,_⟩ := outcome_unique started next
      have once := kept.timely.once
      have begun : starts r (history ++ (.call r t₀ none,.returned r (.requeueAfter (5 * second))) :: later) =
          starts r history ++ t₀ :: starts r later := by simp [starts,startOf]
      rw [begun] at once member
      obtain ⟨before,after⟩ : starts r history = [] ∧ starts r later = [] := by
        simp only [List.length_append,List.length_cons] at once
        exact ⟨List.length_eq_zero_iff.mp (by omega),List.length_eq_zero_iff.mp (by omega)⟩
      rw [before,after] at member
      obtain rfl : t = t₀ := by simpa using member
      exact unhurried
  refine ⟨own,fun alone => Iff.trans ?_ own⟩
  constructor
  · intro lasting rest history' c' result before x after split q t deleted same
    exact lasting rest history' c' result before x after split q t deleted ⟨sp,same ▸ known,rfl⟩
  · intro lasting rest history' c' result before x after split q t deleted ⟨sq,other,spaces⟩
    exact lasting rest history' c' result before x after split q t deleted
      (alone q sq other (runNamespace_injective spaces))

theorem tallied_wholeSeconds : WholeSeconds tallied := by
  intro t
  simp only [tallied]
  cases t / second with
  | ofNat n => simp [List.count_replicate]
  | negSucc n => simp [List.count_replicate,Int.negSucc_eq]

/-- The first of two runs up to its update. -/
def almostRunning : List (Action Bool) := .reconcile false 0 0 :: List.replicate 4 (.call false 0 none)

theorem wholeSecond_lasting :
    (∃ history c, run (noted tallied (twoRuns ['s'] ['t'])) almostRunning (start emptyStore 0) = some (history,c) ∧
      c.stage false = .running) ∧
    Lasting tallied (twoRuns ['s'] ['t']) ⟨['c'],['s'],['x'],"5s".toList⟩ (· = false) false almostRunning second
      (start emptyStore 0) := by
  obtain ⟨history,c,reached,stage,time⟩ : ∃ history c,
      run (noted tallied (twoRuns ['s'] ['t'])) almostRunning (start emptyStore 0) = some (history,c) ∧
      c.stage false = .running ∧ c.clock ≤ second := ⟨_,_,rfl,rfl,by decide⟩
  have known : twoRuns ['s'] ['t'] false = some ⟨['c'],['s'],['x'],"5s".toList⟩ := rfl
  exact ⟨⟨history,c,reached,stage⟩,
    (full_duration_iff tallied_wholeSeconds known reached stage time).1.mpr (.inr (Int.dvd_refl _))⟩

/-- A run of five seconds that is started 0.9 seconds after the full second and loses its namespace
after 4.1 seconds. -/
theorem fraction_lost :
    duration tallied ⟨['c'],['s'],['x'],"5s".toList⟩ = 5 * second ∧
    ∃ history c, run (noted tallied (twoRuns ['s'] ['t'])) (almostRunning ++ [.call false 900000000 none,
        .reconcile false (5 * second) (5 * second),.call false (5 * second) none]) (start emptyStore 0) =
          some (history,c) ∧
      starts false history = [900000000] ∧ history.filterMap deletionOf = [(false,5 * second)] ∧
      ¬5 * second ≤ 5 * second - 900000000 :=
  ⟨rfl,_,_,rfl,rfl,rfl,by decide⟩

end TradingPlatform.Controller
