import Mathlib.Data.List.Basic

/-! Runs of a machine that reads one input at a time, may get stuck, and answers each
input with one output. -/
namespace TradingPlatform.Runs

variable {σ τ ι κ ο π : Type}

def run (step : σ → ι → Option (ο × σ)) : List ι → σ → Option (List ο × σ)
  | [], s => some ([],s)
  | i :: is, s =>
    match step s i with
    | none => none
    | some (o,s') => (run step is s').map fun (os,t) => (o :: os,t)

variable {step : σ → ι → Option (ο × σ)}

theorem outcome_unique {result : Option (ο × σ)} (first : result = some (o,s))
    (second : result = some (o',s')) : o = o' ∧ s = s' :=
  Prod.mk.inj (Option.some.inj (first.symm.trans second))

theorem run_cons (first : step s i = some (o,s')) (rest : run step is s' = some (os,t)) :
    run step (i :: is) s = some (o :: os,t) := by
  simp [run,first,rest]

theorem run_cons_inv (result : run step (i :: is) s = some (outputs,t)) :
    ∃ o os s', step s i = some (o,s') ∧ run step is s' = some (os,t) ∧ outputs = o :: os := by
  simp only [run] at result
  cases first : step s i with
  | none => simp [first] at result
  | some pair =>
    obtain ⟨o,s'⟩ := pair
    simp only [first,Option.map_eq_some_iff,Prod.mk.injEq] at result
    obtain ⟨⟨os,t'⟩,rest,rfl,rfl⟩ := result
    exact ⟨o,os,s',rfl,rest,rfl⟩

/-- A machine that moves from every state of an invariant, and stays in it, never sticks. -/
theorem run_total (I : σ → Prop) (moves : ∀ s i, I s → ∃ o s', step s i = some (o,s') ∧ I s')
    (is : List ι) (start : I s) : ∃ os t, run step is s = some (os,t) ∧ I t := by
  induction is generalizing s with
  | nil => exact ⟨[],s,rfl,start⟩
  | cons i is ih =>
    obtain ⟨o,s',first,kept⟩ := moves s i start
    obtain ⟨os,t,rest,final⟩ := ih kept
    exact ⟨o :: os,t,run_cons first rest,final⟩

/-- The same with an invariant that also speaks about the answers given so far. -/
theorem run_accumulates (I : List ο → σ → Prop)
    (moves : ∀ os s i, I os s → ∃ o s', step s i = some (o,s') ∧ I (os ++ [o]) s')
    (is : List ι) (before : List ο) (start : I before s) :
    ∃ os t, run step is s = some (os,t) ∧ I (before ++ os) t := by
  induction is generalizing before s with
  | nil => exact ⟨[],s,rfl,by simpa using start⟩
  | cons i is ih =>
    obtain ⟨o,s',first,kept⟩ := moves before s i start
    obtain ⟨os,t,rest,final⟩ := ih _ kept
    exact ⟨o :: os,t,run_cons first rest,by simpa using final⟩

/-- What every step keeps holds after every run that does not get stuck. -/
theorem run_preserves (I : List ο → σ → Prop)
    (keeps : ∀ os s i o s', I os s → step s i = some (o,s') → I (os ++ [o]) s')
    (is : List ι) (before : List ο) (start : I before s) (result : run step is s = some (os,t)) :
    I (before ++ os) t := by
  induction is generalizing before s os with
  | nil =>
    obtain ⟨rfl,rfl⟩ := Prod.mk.inj (Option.some.inj result)
    simpa using start
  | cons i is ih =>
    obtain ⟨o,later,s',first,rest,rfl⟩ := run_cons_inv result
    simpa using ih (before ++ [o]) (keeps before s i o s' start first) rest

/-- Two machines whose inputs and answers correspond, under a relation that may depend on
the inputs to come. -/
theorem run_relates {step' : τ → κ → Option (π × τ)} (f : ι → κ) (g : ο → π)
    (R : List ι → σ → τ → Prop)
    (moves : ∀ i is s t, R (i :: is) s t →
      ∃ o s' t', step s i = some (o,s') ∧ step' t (f i) = some (g o,t') ∧ R is s' t')
    (is : List ι) (start : R is s t) :
    ∃ os s' t', run step is s = some (os,s') ∧ run step' (is.map f) t = some (os.map g,t') ∧
      R [] s' t' := by
  induction is generalizing s t with
  | nil => exact ⟨[],s,t,rfl,rfl,start⟩
  | cons i is ih =>
    obtain ⟨o,s',t',first,second,related⟩ := moves i is s t start
    obtain ⟨os,s'',t'',rest,rest',final⟩ := ih related
    exact ⟨o :: os,s'',t'',run_cons first rest,run_cons second rest',final⟩

/-- Two machines that answer alike. -/
theorem run_simulates {step' : τ → ι → Option (ο × τ)} (R : List ι → σ → τ → Prop)
    (moves : ∀ i is s t, R (i :: is) s t →
      ∃ o s' t', step s i = some (o,s') ∧ step' t i = some (o,t') ∧ R is s' t')
    (is : List ι) (start : R is s t) :
    ∃ os s' t', run step is s = some (os,s') ∧ run step' is t = some (os,t') ∧ R [] s' t' := by
  simpa using run_relates id id R moves is start

/-- A property of every state a run passes through, the first and the last included. -/
def Always (step : σ → ι → Option (ο × σ)) (P : σ → Prop) (is : List ι) (s : σ) : Prop :=
  ∀ front rest os t, is = front ++ rest → run step front s = some (os,t) → P t

/-- A condition on every state of a run together with the input read in it. -/
def EachStep (step : σ → ι → Option (ο × σ)) (G : σ → ι → Prop) (is : List ι) (s : σ) : Prop :=
  ∀ front i rest os t, is = front ++ i :: rest → run step front s = some (os,t) → G t i

theorem always_nil : Always step P [] s ↔ P s := by
  constructor
  · intro all
    exact all [] [] [] s rfl rfl
  · intro holds front rest os t split result
    obtain ⟨rfl,rfl⟩ := List.append_eq_nil_iff.mp split.symm
    obtain ⟨_,rfl⟩ := Prod.mk.inj (Option.some.inj result)
    exact holds

theorem always_cons (first : step s i = some (o,s')) :
    Always step P (i :: is) s ↔ P s ∧ Always step P is s' := by
  constructor
  · intro all
    refine ⟨all [] _ [] s rfl rfl,fun front rest os t split result => ?_⟩
    exact all (i :: front) rest (o :: os) t (by simp [split]) (run_cons first result)
  · rintro ⟨holds,later⟩ front rest os t split result
    cases front with
    | nil =>
      obtain ⟨_,rfl⟩ := Prod.mk.inj (Option.some.inj result)
      exact holds
    | cons j front =>
      obtain ⟨rfl,split'⟩ := List.cons.inj split
      obtain ⟨o',os',m,step',rest',_⟩ := run_cons_inv result
      obtain ⟨_,rfl⟩ := outcome_unique first step'
      exact later front rest os' t split' rest'

theorem eachStep_cons (first : step s i = some (o,s')) :
    EachStep step G (i :: is) s ↔ G s i ∧ EachStep step G is s' := by
  constructor
  · intro all
    refine ⟨all [] i is [] s rfl rfl,fun front j rest os t split result => ?_⟩
    exact all (i :: front) j rest (o :: os) t (by simp [split]) (run_cons first result)
  · rintro ⟨holds,later⟩ front j rest os t split result
    cases front with
    | nil =>
      obtain ⟨rfl,_⟩ := List.cons.inj split
      obtain ⟨_,rfl⟩ := Prod.mk.inj (Option.some.inj result)
      exact holds
    | cons k front =>
      obtain ⟨rfl,split'⟩ := List.cons.inj split
      obtain ⟨o',os',m,step',rest',_⟩ := run_cons_inv result
      obtain ⟨_,rfl⟩ := outcome_unique first step'
      exact later front j rest os' t split' rest'

/-- What every step keeps under its condition holds after every run whose steps all meet it. -/
theorem run_preserves_under (I : List ο → σ → Prop)
    (keeps : ∀ os s i o s', I os s → G s i → step s i = some (o,s') → I (os ++ [o]) s')
    (is : List ι) (before : List ο) (start : I before s) (guarded : EachStep step G is s)
    (result : run step is s = some (os,t)) : I (before ++ os) t := by
  induction is generalizing before s os with
  | nil =>
    obtain ⟨rfl,rfl⟩ := Prod.mk.inj (Option.some.inj result)
    simpa using start
  | cons i is ih =>
    obtain ⟨o,later,s',first,rest,rfl⟩ := run_cons_inv result
    rw [eachStep_cons first] at guarded
    simpa using ih (before ++ [o]) (keeps before s i o s' start guarded.1 first) guarded.2 rest

/-- A run that checks a condition before each of its steps. -/
theorem run_guarded {G : σ → ι → Prop} [∀ s i, Decidable (G s i)]
    (result : run (fun s i => if G s i then step s i else none) is s = some (os,t)) :
    run step is s = some (os,t) ∧ EachStep step G is s := by
  induction is generalizing s os with
  | nil =>
    refine ⟨result,fun front i rest os t split _ => ?_⟩
    simp at split
  | cons i is ih =>
    obtain ⟨o,later,s',first,rest,rfl⟩ := run_cons_inv result
    obtain ⟨meets,first⟩ := Option.ite_none_right_eq_some.mp first
    obtain ⟨after,guarded⟩ := ih rest
    exact ⟨run_cons first after,(eachStep_cons first).mpr ⟨meets,guarded⟩⟩

/-- A condition on every step of a run that also speaks about the answers given before it. -/
def EachLogged (step : σ → ι → Option (ο × σ)) (G : List ο → σ → ι → Prop) (is : List ι) (before : List ο)
    (s : σ) : Prop :=
  ∀ front i rest os t, is = front ++ i :: rest → run step front s = some (os,t) → G (before ++ os) t i

theorem eachLogged_nil : EachLogged step G [] before s := by
  intro front i rest os t split _
  simp at split

theorem eachLogged_cons (first : step s i = some (o,s')) :
    EachLogged step G (i :: is) before s ↔ G before s i ∧ EachLogged step G is (before ++ [o]) s' := by
  constructor
  · intro all
    refine ⟨by simpa using all [] i is [] s rfl rfl,fun front j rest os t split result => ?_⟩
    simpa using all (i :: front) j rest (o :: os) t (by simp [split]) (run_cons first result)
  · rintro ⟨holds,later⟩ front j rest os t split result
    cases front with
    | nil =>
      obtain ⟨rfl,_⟩ := List.cons.inj split
      obtain ⟨rfl,rfl⟩ := Prod.mk.inj (Option.some.inj result)
      simpa using holds
    | cons k front =>
      obtain ⟨rfl,split'⟩ := List.cons.inj split
      obtain ⟨o',os',m,step',rest',rfl⟩ := run_cons_inv result
      obtain ⟨rfl,rfl⟩ := outcome_unique first step'
      simpa using later front j rest os' t split' rest'

theorem run_preserves_logged (I : List ο → σ → Prop)
    (keeps : ∀ os s i o s', I os s → G os s i → step s i = some (o,s') → I (os ++ [o]) s')
    (is : List ι) (before : List ο) (start : I before s) (guarded : EachLogged step G is before s)
    (result : run step is s = some (os,t)) : I (before ++ os) t := by
  induction is generalizing before s os with
  | nil =>
    obtain ⟨rfl,rfl⟩ := Prod.mk.inj (Option.some.inj result)
    simpa using start
  | cons i is ih =>
    obtain ⟨o,later,s',first,rest,rfl⟩ := run_cons_inv result
    rw [eachLogged_cons first] at guarded
    simpa using ih (before ++ [o]) (keeps before s i o s' start guarded.1 first) guarded.2 rest

/-- Steps that go through under their condition make a run that goes through. -/
theorem run_total_logged (I : List ο → σ → Prop)
    (moves : ∀ os s i, I os s → G os s i → ∃ o s', step s i = some (o,s') ∧ I (os ++ [o]) s')
    (is : List ι) (before : List ο) (start : I before s) (guarded : EachLogged step G is before s) :
    ∃ os t, run step is s = some (os,t) ∧ I (before ++ os) t := by
  induction is generalizing before s with
  | nil => exact ⟨[],s,rfl,by simpa using start⟩
  | cons i is ih =>
    have meets : G before s i := by simpa using guarded [] i is [] s rfl rfl
    obtain ⟨o,s',first,kept⟩ := moves before s i start meets
    rw [eachLogged_cons first] at guarded
    obtain ⟨os,t,rest,final⟩ := ih _ kept guarded.2
    exact ⟨o :: os,t,run_cons first rest,by simpa using final⟩

/-- Where a step keeps a property exactly when its condition is met, a run has the property
throughout exactly when all its steps meet the condition. The property may be carried by a
stronger one that the condition preserves. -/
theorem always_iff_eachStep (K : List ι → σ → Prop) {P Q : σ → Prop} (weaken : ∀ s, P s → Q s)
    (moves : ∀ i is s, K (i :: is) s → ∃ o s', step s i = some (o,s') ∧ K is s' ∧
      (P s → (Q s' → G s i) ∧ (G s i → P s')))
    (is : List ι) (start : K is s) (holds : P s) :
    (Always step Q is s ↔ EachStep step G is s) ∧ (EachStep step G is s → Always step P is s) := by
  induction is generalizing s with
  | nil =>
    rw [always_nil,always_nil]
    refine ⟨⟨fun _ front i rest os t split _ => ?_,fun _ => weaken s holds⟩,fun _ => holds⟩
    simp at split
  | cons i is ih =>
    obtain ⟨o,s',first,kept,exact⟩ := moves i is s start
    obtain ⟨needs,keeps⟩ := exact holds
    rw [always_cons first,always_cons first,eachStep_cons first]
    refine ⟨⟨?_,?_⟩,?_⟩
    · rintro ⟨_,later⟩
      have meets := needs (later [] is [] s' rfl rfl)
      exact ⟨meets,(ih kept (keeps meets)).1.mp later⟩
    · rintro ⟨meets,later⟩
      exact ⟨weaken s holds,(ih kept (keeps meets)).1.mpr later⟩
    · rintro ⟨meets,later⟩
      exact ⟨holds,(ih kept (keeps meets)).2 later⟩

theorem run_append (first : run step xs s = some (os,m)) (second : run step ys m = some (os',t)) :
    run step (xs ++ ys) s = some (os ++ os',t) := by
  induction xs generalizing s os with
  | nil =>
    obtain ⟨rfl,rfl⟩ := Prod.mk.inj (Option.some.inj first)
    exact second
  | cons i xs ih =>
    obtain ⟨o,rest,s',step',later,rfl⟩ := run_cons_inv first
    exact run_cons step' (ih later)

theorem run_append_inv (result : run step (xs ++ ys) s = some (outputs,t)) :
    ∃ os os' m, run step xs s = some (os,m) ∧ run step ys m = some (os',t) ∧ outputs = os ++ os' := by
  induction xs generalizing s outputs with
  | nil => exact ⟨[],outputs,s,rfl,result,rfl⟩
  | cons i xs ih =>
    obtain ⟨o,rest,s',first,later,rfl⟩ := run_cons_inv result
    obtain ⟨os,os',m,front,back,rfl⟩ := ih later
    exact ⟨o :: os,os',m,run_cons first front,back,rfl⟩

/-- A machine that is not done and always has an input which lowers a weight can be driven
until it is. -/
theorem run_ends (I final : σ → Prop) (Q : ο → Prop) (weight : σ → Nat)
    (progress : ∀ s, I s → ¬final s → ∃ i o s', step s i = some (o,s') ∧ Q o ∧ I s' ∧ weight s' < weight s)
    (start : I s) : ∃ is os t, run step is s = some (os,t) ∧ (∀ o ∈ os, Q o) ∧ I t ∧ final t := by
  induction bound : weight s using Nat.strongRecOn generalizing s with
  | ind n ih =>
    by_cases finished : final s
    · exact ⟨[],[],s,rfl,by simp,start,finished⟩
    · obtain ⟨i,o,s',first,answer,kept,lower⟩ := progress s start finished
      obtain ⟨is,os,t,rest,answers,invariant,ended⟩ := ih _ (by omega) kept rfl
      refine ⟨i :: is,o :: os,t,run_cons first rest,?_,invariant,ended⟩
      intro o' member
      rcases List.mem_cons.mp member with rfl | later
      · exact answer
      · exact answers o' later

theorem run_length (result : run step is s = some (os,t)) : os.length = is.length := by
  induction is generalizing s os with
  | nil =>
    obtain ⟨rfl,_⟩ := Prod.mk.inj (Option.some.inj result)
    rfl
  | cons i is ih =>
    obtain ⟨o,rest,s',_,later,rfl⟩ := run_cons_inv result
    simp [ih later]

/-- A machine whose answers are its inputs logs what it was told. -/
theorem run_echo {step : σ → ι → Option (ι × σ)} (echo : ∀ s i o s', step s i = some (o,s') → o = i)
    (result : run step is s = some (os,t)) : os = is := by
  induction is generalizing s os with
  | nil => exact (Prod.mk.inj (Option.some.inj result)).1.symm
  | cons i is ih =>
    obtain ⟨o,rest,s',first,later,rfl⟩ := run_cons_inv result
    rw [echo s i o s' first,ih later]

/-- Answers are split as the inputs are. -/
theorem run_append_split (result : run step (xs ++ ys) s = some (os ++ os',t)) (length : os.length = xs.length) :
    ∃ m, run step xs s = some (os,m) ∧ run step ys m = some (os',t) := by
  obtain ⟨front,back,m,first,second,parts⟩ := run_append_inv result
  obtain ⟨rfl,rfl⟩ := List.append_inj parts (by rw [length,run_length first])
  exact ⟨m,first,second⟩

end TradingPlatform.Runs
